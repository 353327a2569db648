import GrammarNet.SymbolSet.Basic

/-!
Sets of symbols in machine words.

Symbols and the ends of intervals are kept in words of 32 bits, and sums are made in words of 32 or
64 bits. Here each sum is checked for its width, so that an operation has no result when one of its
sums does not fit. New intervals are put behind the old ones, then all are sorted and joined in one
pass (`normal?`), and a symbol is looked up by bisection (`contains`).

On a set of symbols that fit, each operation has a result, which is that of the operation on
`SymbolSet`: `add?_eq`, `addAll?_eq`, `remove?_eq`, `complement?_eq`, `contains_iff`, `ofList?_eq`,
`toList?_eq`, `size?_eq`.
-/

namespace GrammarNet

/-- The width of a signed machine word. -/
inductive Width where
  /-- 32 bits. -/
  | word
  /-- 64 bits. -/
  | long

namespace Width

/-- The largest number of a width. -/
def greatest : Width → Int
  | word => 2147483647
  | long => 9223372036854775807

/-- The number can be written with a width. -/
def Fits (w : Width) (n : Int) : Prop :=
  -w.greatest - 1 ≤ n ∧ n ≤ w.greatest

instance (w : Width) (n : Int) : Decidable (w.Fits n) :=
  inferInstanceAs (Decidable (_ ∧ _))

/-- The result of a sum, unless it overflows. -/
def check (w : Width) (n : Int) : Option Int :=
  if w.Fits n then some n else none

theorem check_eq {w : Width} {n : Int} (fits : w.Fits n) : w.check n = some n :=
  if_pos fits

theorem word_fits {n : Int} : word.Fits n ↔ -2147483648 ≤ n ∧ n ≤ 2147483647 :=
  Iff.rfl

/-- Between two numbers that fit there are only numbers that fit. -/
theorem Fits.between {w : Width} {lo hi n : Int} (first : w.Fits lo) (last : w.Fits hi)
    (above : lo ≤ n) (below : n ≤ hi) : w.Fits n :=
  ⟨Int.le_trans first.1 above, Int.le_trans below last.2⟩

theorem fits_max {w : Width} {m n : Int} (left : w.Fits m) (right : w.Fits n) :
    w.Fits (max m n) := by
  rcases Int.le_total m n with le | le
  · rwa [Int.max_eq_right le]
  · rwa [Int.max_eq_left le]

/-- The number after a short word is a long word. -/
theorem Fits.next {n : Int} (fits : word.Fits n) : long.Fits (n + 1) := by
  rw [word_fits] at fits
  simp only [Fits, greatest]
  omega

end Width

namespace Words

open Intervals

/-! ### Operations -/

/-- The order by starts, and for equal starts by ends. -/
def atMost (r s : Interval) : Bool :=
  decide (r.lo < s.lo) || (decide (r.lo = s.lo) && decide (r.hi ≤ s.hi))

/-- Joins the last interval so far with those behind it that overlap or touch it, and goes on. -/
def join? (last : Interval) : List Interval → Option (List Interval)
  | [] => some [last]
  | next :: rest => do
      let beyond ← Width.long.check (last.hi + 1)
      if next.lo ≤ beyond then join? ⟨last.lo, max last.hi next.hi⟩ rest
      else return last :: (← join? next rest)

/-- Sorts intervals and joins those that overlap or touch. -/
def normal? (l : List Interval) : Option (List Interval) :=
  match l.mergeSort atMost with
  | [] => some []
  | first :: rest => join? first rest

/-- Adds the symbols from `lo` to `hi`. -/
def add? (lo hi : Int) (l : List Interval) : Option (List Interval) :=
  if hi < lo then some l else normal? (l ++ [⟨lo, hi⟩])

/-- Adds the symbols of other intervals. -/
def addAll? (other l : List Interval) : Option (List Interval) :=
  if other.isEmpty then some l else normal? (l ++ other)

/-- Takes one symbol out. -/
def remove? (x : Int) : List Interval → Option (List Interval)
  | [] => some []
  | r :: rest =>
      if x < r.lo then some (r :: rest)
      else if r.hi < x then do return r :: (← remove? x rest)
      else if r.lo = r.hi then some rest
      else if x = r.lo then do return ⟨← Width.word.check (r.lo + 1), r.hi⟩ :: rest
      else if x = r.hi then do return ⟨r.lo, ← Width.word.check (r.hi - 1)⟩ :: rest
      else do
        let above ← Width.word.check (x + 1)
        let below ← Width.word.check (x - 1)
        return ⟨r.lo, below⟩ :: ⟨above, r.hi⟩ :: rest

/-- What is left free from `next` to `max` behind all intervals. -/
def lastGap? (max next : Int) : Option (List Interval) :=
  if next ≤ max then do return [⟨← Width.word.check next, max⟩] else some []

/-- What intervals leave free from `next` to `max`, where those that end below `min` are skipped. The
next free symbol is a long word, since it may lie behind the largest short one. -/
def gaps? (min max next : Int) : List Interval → Option (List Interval)
  | [] => lastGap? max next
  | r :: rest =>
      if r.hi < min then gaps? min max next rest
      else if max < r.lo then lastGap? max next
      else if next < r.lo then do
        let gap : Interval := ⟨← Width.word.check next, ← Width.word.check (r.lo - 1)⟩
        return gap :: (← gaps? min max (← Width.long.check (r.hi + 1)) rest)
      else do gaps? min max (← Width.long.check (r.hi + 1)) rest

/-- The symbols from `min` to `max` that are not in the intervals. -/
def complement? (min max : Int) (l : List Interval) : Option (List Interval) :=
  gaps? min max min l

/-- The first of `count` places from `first` on that is above, when those after it are as well. -/
def bisect (above : Nat → Bool) (first count : Nat) : Nat :=
  if count = 0 then first
  else if above (first + count / 2) then bisect above first (count / 2)
  else bisect above (first + count / 2 + 1) (count - count / 2 - 1)
termination_by count

/-- The interval at a place starts above a symbol; so does what lies behind the intervals. -/
def startsAbove (l : List Interval) (x : Int) (i : Nat) : Bool :=
  l[i]?.all fun r => decide (x < r.lo)

/-- The symbol lies in the last interval that does not start above it. -/
def contains (l : List Interval) (x : Int) : Bool :=
  match bisect (startsAbove l x) 0 l.length with
  | 0 => false
  | i + 1 => l[i]?.any fun r => decide (x ≤ r.hi)

/-- The symbols from `next` to `hi`. They are counted in a long word, since the count goes on behind
the largest short one, and each is listed as a short word. -/
def listFrom? (hi next : Int) : Option (List Int) :=
  if next ≤ hi then do
    let x ← Width.word.check next
    let _ ← Width.long.check (next + 1)
    return x :: (← listFrom? hi (next + 1))
  else some []
termination_by (hi + 1 - next).toNat

/-- The symbols of the intervals, one interval after the other. -/
def toList? : List Interval → Option (List Int)
  | [] => some []
  | r :: rest => do return (← listFrom? r.hi r.lo) ++ (← toList? rest)

/-- A sum in an unsigned word of 64 bits, with the number of symbols in an interval added to it. -/
def addSize? (n : Nat) (r : Interval) : Option Nat := do
  let span ← Width.long.check (r.hi - r.lo)
  let count ← Width.long.check (span + 1)
  return (n + (count % 18446744073709551616).toNat) % 18446744073709551616

/-- The number of symbols. -/
def size? (l : List Interval) : Option Nat :=
  l.foldlM addSize? 0

/-- The intervals after adding symbols one by one to none. -/
def ofList? (symbols : List Int) : Option (List Interval) :=
  symbols.foldlM (fun l x => add? x x l) []

/-! ### Joining intervals -/

theorem atMost_iff {r s : Interval} :
    atMost r s = true ↔ r.lo < s.lo ∨ r.lo = s.lo ∧ r.hi ≤ s.hi := by
  simp [atMost]

theorem atMost_trans (r s t : Interval) (first : atMost r s) (second : atMost s t) :
    atMost r t := by
  rw [atMost_iff] at *
  omega

theorem atMost_total (r s : Interval) : (atMost r s || atMost s r) = true := by
  rw [Bool.or_eq_true, atMost_iff, atMost_iff]
  omega

/-- Intervals that ascend by their starts are joined to separated ones with the same symbols. -/
theorem join?_spec {last : Interval} {rest : List Interval}
    (nonempty : ∀ r ∈ last :: rest, r.lo ≤ r.hi)
    (fits : ∀ r ∈ last :: rest, Width.word.Fits r.hi)
    (ascending : (last :: rest).Pairwise fun r s => r.lo ≤ s.lo) :
    ∃ joined, join? last rest = some joined ∧ Separated joined ∧
      (∀ r ∈ joined, last.lo ≤ r.lo) ∧ ∀ x, Holds joined x ↔ Holds (last :: rest) x := by
  induction rest generalizing last with
  | nil => exact ⟨[last], rfl, by simpa [Separated] using nonempty, by simp, fun x => Iff.rfl⟩
  | cons next rest ih =>
      simp only [List.forall_mem_cons, List.pairwise_cons] at nonempty fits ascending
      obtain ⟨here, there, others⟩ := nonempty
      obtain ⟨fit, fit', fits⟩ := fits
      obtain ⟨⟨below, belowRest⟩, belowNext, ascending⟩ := ascending
      simp only [join?, Width.check_eq fit.next, Option.pure_def, Option.bind_eq_bind,
        Option.bind_some]
      split
      · next touching =>
          obtain ⟨joined, made, separated, from', same⟩ :=
            @ih ⟨last.lo, max last.hi next.hi⟩
              (List.forall_mem_cons.mpr ⟨Int.le_trans here (Int.le_max_left _ _), others⟩)
              (List.forall_mem_cons.mpr ⟨Width.fits_max fit fit', fits⟩)
              (List.pairwise_cons.mpr ⟨belowRest, ascending⟩)
          refine ⟨joined, made, separated, from', fun x => ?_⟩
          rw [same, holds_cons, holds_cons, holds_cons, ← or_assoc]
          refine or_congr_left ?_
          simp only [Interval.Holds]
          omega
      · next gap =>
          obtain ⟨joined, made, separated, from', same⟩ :=
            ih (List.forall_mem_cons.mpr ⟨there, others⟩)
              (List.forall_mem_cons.mpr ⟨fit', fits⟩)
              (List.pairwise_cons.mpr ⟨belowNext, ascending⟩)
          refine ⟨last :: joined, by rw [made]; rfl, separated_cons.mpr ⟨here, fun r mem => ?_,
            separated⟩, List.forall_mem_cons.mpr ⟨Int.le_refl _, fun r mem => ?_⟩, fun x => ?_⟩
          · have := from' r mem
            omega
          · have := from' r mem
            omega
          · rw [holds_cons, same, ← holds_cons]

/-- Non-empty intervals whose ends fit have separated ones with the same symbols. -/
theorem normal?_spec {l : List Interval} (nonempty : ∀ r ∈ l, r.lo ≤ r.hi)
    (fits : ∀ r ∈ l, Width.word.Fits r.hi) :
    ∃ joined, normal? l = some joined ∧ Separated joined ∧ ∀ x, Holds joined x ↔ Holds l x := by
  have perm := List.mergeSort_perm l atMost
  have sorted : (l.mergeSort atMost).Pairwise fun r s => r.lo ≤ s.lo :=
    (List.pairwise_mergeSort atMost_trans atMost_total l).imp fun order => by
      rw [atMost_iff] at order
      omega
  have same : ∀ x, Holds (l.mergeSort atMost) x ↔ Holds l x := fun x =>
    exists_congr fun r => and_congr_left' perm.mem_iff
  unfold normal?
  split
  · next empty => exact ⟨[], rfl, separated_nil, fun x => by rw [← same, empty]⟩
  · next first rest split =>
      rw [split] at perm sorted
      obtain ⟨joined, made, separated, -, joins⟩ :=
        join?_spec (fun r mem => nonempty r (perm.mem_iff.mp mem))
          (fun r mem => fits r (perm.mem_iff.mp mem)) sorted
      exact ⟨joined, made, separated, fun x => by rw [joins, ← same, split]⟩

end Words

namespace SymbolSet

/-- All symbols of the set are short words. -/
def InWords (s : SymbolSet) : Prop :=
  ∀ x ∈ s, Width.word.Fits x

/-- The ends of the intervals of a set are among its symbols. -/
theorem InWords.ends {s : SymbolSet} (fits : s.InWords) {r : Interval} (mem : r ∈ s.intervals) :
    Width.word.Fits r.lo ∧ Width.word.Fits r.hi :=
  have nonempty := s.separated.1 r mem
  ⟨fits r.lo ⟨r, mem, Int.le_refl _, nonempty⟩, fits r.hi ⟨r, mem, nonempty, Int.le_refl _⟩⟩

theorem intervals_inj {s t : SymbolSet} : s.intervals = t.intervals ↔ s = t := by
  obtain ⟨l, _⟩ := s
  obtain ⟨m, _⟩ := t
  simp only [mk.injEq]

section InWords

variable {s t : SymbolSet} {lo hi : Int}

theorem inWords_empty : (∅ : SymbolSet).InWords :=
  fun _ mem => absurd mem not_mem_empty

theorem InWords.add (fits : s.InWords) (first : Width.word.Fits lo) (last : Width.word.Fits hi) :
    (s.add lo hi).InWords := by
  intro x mem
  rcases mem_add.mp mem with ⟨above, below⟩ | old
  · exact first.between last above below
  · exact fits x old

theorem InWords.union (fits : s.InWords) (fits' : t.InWords) : (s ∪ t).InWords := by
  intro x mem
  rcases mem_union.mp mem with old | new
  · exact fits x old
  · exact fits' x new

theorem InWords.remove (fits : s.InWords) (x : Int) : (s.remove x).InWords :=
  fun y mem => fits y (mem_remove.mp mem).1

/-- A complement has symbols between its bounds alone, whatever the set. -/
theorem inWords_complement (first : Width.word.Fits lo) (last : Width.word.Fits hi) :
    (s.complement lo hi).InWords := by
  intro x mem
  obtain ⟨above, below, -⟩ := mem_complement.mp mem
  exact first.between last above below

end InWords

end SymbolSet

namespace Words

open Intervals

variable {s t : SymbolSet} {l : List Interval} {lo hi x : Int}

/-! ### Operations on sets that fit -/

/-- Intervals with the symbols of a set that fits are brought into the form of that set. -/
theorem normal?_eq (fits : s.InWords) (nonempty : ∀ r ∈ l, r.lo ≤ r.hi)
    (same : ∀ x, Holds l x ↔ x ∈ s) : normal? l = some s.intervals := by
  have ends : ∀ r ∈ l, Width.word.Fits r.hi := fun r mem =>
    fits r.hi ((same r.hi).mp ⟨r, mem, nonempty r mem, Int.le_refl _⟩)
  obtain ⟨joined, made, separated, joins⟩ := normal?_spec nonempty ends
  rw [made, separated.eq_of_holds_iff s.separated fun x => (joins x).trans (same x)]

theorem add?_eq (fits : (s.add lo hi).InWords) :
    add? lo hi s.intervals = some (s.add lo hi).intervals := by
  unfold add?
  split
  · next empty => rw [SymbolSet.add, dif_neg (Int.not_le.mpr empty)]
  · next nonempty =>
      refine normal?_eq fits (fun r mem => ?_) fun x => ?_
      · rcases List.mem_append.mp mem with old | new
        · exact s.separated.1 r old
        · rw [List.mem_singleton.mp new]
          exact Int.not_lt.mp nonempty
      · rw [holds_append, SymbolSet.mem_add, or_comm]
        simp [Interval.Holds, SymbolSet.mem_def, Holds]

theorem addSymbols?_eq {symbols : List Int} (fits : s.InWords)
    (words : ∀ x ∈ symbols, Width.word.Fits x) :
    symbols.foldlM (fun l x => add? x x l) s.intervals =
      some (symbols.foldl SymbolSet.addSymbol s).intervals := by
  induction symbols generalizing s with
  | nil => rfl
  | cons x symbols ih =>
      obtain ⟨word, words⟩ := List.forall_mem_cons.mp words
      have more : (s.addSymbol x).InWords := fits.add word word
      rw [List.foldlM_cons, add?_eq more, Option.bind_eq_bind, Option.bind_some]
      exact ih more words

theorem ofList?_eq {symbols : List Int} (words : ∀ x ∈ symbols, Width.word.Fits x) :
    ofList? symbols = some (SymbolSet.ofList symbols).intervals :=
  addSymbols?_eq SymbolSet.inWords_empty words

theorem addAll?_eq (fits : (s ∪ t).InWords) :
    addAll? t.intervals s.intervals = some (s ∪ t).intervals := by
  unfold addAll?
  split
  · next empty => rw [SymbolSet.isEmpty_iff.mp empty]; rfl
  · refine normal?_eq fits (fun r mem => ?_) fun x => ?_
    · rcases List.mem_append.mp mem with old | new
      · exact s.separated.1 r old
      · exact t.separated.1 r new
    · rw [holds_append, SymbolSet.mem_union]
      rfl

/-- The ends that are left are next to the symbol, within intervals that fit. -/
theorem remove?_eq_remove (fits : ∀ r ∈ l, Width.word.Fits r.lo ∧ Width.word.Fits r.hi) :
    remove? x l = some (Intervals.remove x l) := by
  induction l with
  | nil => rfl
  | cons r rest ih =>
      obtain ⟨⟨fit, fit'⟩, others⟩ := List.forall_mem_cons.mp fits
      rw [remove?, Intervals.remove]
      split
      · rfl
      · next start =>
          split
          · rw [ih others]
            rfl
          · next inside =>
              have above : x < r.hi → Width.word.check (x + 1) = some (x + 1) := fun room =>
                Width.check_eq (fit.between fit' (by omega) (by omega))
              have below : r.lo < x → Width.word.check (x - 1) = some (x - 1) := fun room =>
                Width.check_eq (fit.between fit' (by omega) (by omega))
              split
              · rw [if_neg (by omega), if_neg (by omega)]
                rfl
              · split
                · next atStart =>
                    rw [← atStart, above (by omega), if_neg (by omega), if_pos (by omega)]
                    rfl
                · split
                  · next atEnd =>
                      rw [← atEnd, below (by omega), if_pos (by omega), if_neg (by omega)]
                      rfl
                  · rw [above (by omega), below (by omega), if_pos (by omega), if_pos (by omega)]
                    rfl

theorem remove?_eq (fits : s.InWords) :
    remove? x s.intervals = some (s.remove x).intervals :=
  remove?_eq_remove fun _ => fits.ends

theorem lastGap?_eq {min max next : Int} (first : Width.word.Fits min) (last : Width.word.Fits max)
    (le : min ≤ next) : lastGap? max next = some (if next ≤ max then [⟨next, max⟩] else []) := by
  unfold lastGap?
  split
  · next room =>
      rw [Width.check_eq (first.between last le room)]
      rfl
  · rfl

/-- Behind the first interval that is not skipped, the intervals begin beyond the next free symbol.
So those that end below `min` are the ones that end below the next free symbol. -/
theorem gaps?_eq_gaps {min max next : Int} (first : Width.word.Fits min)
    (last : Width.word.Fits max) (separated : Separated l)
    (fits : ∀ r ∈ l, Width.word.Fits r.lo ∧ Width.word.Fits r.hi) (le : min ≤ next)
    (skipped : ∀ r ∈ l, r.hi < min ↔ r.hi < next) :
    gaps? min max next l = some (Intervals.gaps next max l) := by
  induction l generalizing next with
  | nil => exact lastGap?_eq first last le
  | cons r rest ih =>
      obtain ⟨nonempty, gap, separated⟩ := separated_cons.mp separated
      obtain ⟨⟨fit, fit'⟩, fits⟩ := List.forall_mem_cons.mp fits
      obtain ⟨skip, skipped⟩ := List.forall_mem_cons.mp skipped
      rw [gaps?, Intervals.gaps]
      by_cases below : r.hi < min
      · rw [if_pos below, if_pos (skip.mp below)]
        exact ih separated fits le skipped
      · rw [if_neg below, if_neg fun beyond => below (skip.mpr beyond)]
        split
        · exact lastGap?_eq first last le
        · have others : gaps? min max (r.hi + 1) rest =
              some (Intervals.gaps (r.hi + 1) max rest) := by
            apply ih separated fits (by omega)
            intro s mem
            have := gap s mem
            have := separated.1 s mem
            omega
          split
          · next room =>
              have low : Width.word.check next = some next :=
                Width.check_eq (first.between fit le (by omega))
              have high : Width.word.check (r.lo - 1) = some (r.lo - 1) :=
                Width.check_eq (first.between fit (by omega) (by omega))
              rw [low, high, Width.check_eq fit'.next]
              simp only [Option.bind_eq_bind, Option.bind_some, others]
              rfl
          · rw [Width.check_eq fit'.next]
            exact others

theorem complement?_eq {min max : Int} (fits : s.InWords) (first : Width.word.Fits min)
    (last : Width.word.Fits max) :
    complement? min max s.intervals = some (s.complement min max).intervals :=
  gaps?_eq_gaps first last s.separated (fun _ => fits.ends) (Int.le_refl min) fun _ _ => Iff.rfl

/-! ### Bisection -/

/-- Bisection finds the place where a property begins that goes on once it holds. -/
theorem bisect_spec {above : Nat → Bool} (goesOn : ∀ i j, i ≤ j → above i → above j)
    (first count : Nat) :
    bisect above first count ≤ first + count ∧
      (∀ i, first ≤ i → i < bisect above first count → above i = false) ∧
      ∀ i, bisect above first count ≤ i → i < first + count → above i = true := by
  fun_induction bisect above first count with
  | case1 first => exact ⟨Nat.le_refl _, by omega, by omega⟩
  | case2 first count some' holds ih =>
      obtain ⟨within, before, after⟩ := ih
      refine ⟨by omega, before, fun i le lt => ?_⟩
      rcases Nat.lt_or_ge i (first + count / 2) with early | late
      · exact after i le early
      · exact goesOn _ i late holds
  | case3 first count some' fails ih =>
      obtain ⟨within, before, after⟩ := ih
      refine ⟨by omega, fun i le lt => ?_, fun i le lt => after i le (by omega)⟩
      rcases Nat.lt_or_ge (first + count / 2) i with late | early
      · exact before i late lt
      · exact Bool.eq_false_iff.mpr fun holds => fails (goesOn i _ early holds)

/-- In separated intervals, those behind one that starts above a symbol do so as well. -/
theorem startsAbove_goesOn (separated : Separated l) (i j : Nat) (le : i ≤ j)
    (above : startsAbove l x i) : startsAbove l x j := by
  simp only [startsAbove, Option.all_eq_true, decide_eq_true_eq] at above ⊢
  intro s at'
  obtain ⟨bound, rfl⟩ := List.getElem?_eq_some_iff.mp at'
  have start := above l[i] (List.getElem?_eq_getElem (by omega))
  rcases Nat.eq_or_lt_of_le le with rfl | lt
  · exact start
  · have nonempty := separated.1 l[i] (List.getElem_mem _)
    have order := List.pairwise_iff_getElem.mp separated.2 i j (by omega) bound lt
    omega

/-- A symbol is found in separated intervals exactly when one of them holds it. -/
theorem contains_iff (separated : Separated l) : contains l x = true ↔ Holds l x := by
  obtain ⟨within, before, after⟩ := bisect_spec (startsAbove_goesOn (x := x) separated) 0 l.length
  have holds_iff : Holds l x ↔ ∃ (i : Nat) (r : Interval), l[i]? = some r ∧ r.Holds x :=
    ⟨fun ⟨r, mem, here⟩ => have ⟨i, at'⟩ := List.mem_iff_getElem?.mp mem; ⟨i, r, at', here⟩,
      fun ⟨i, r, at', here⟩ => ⟨r, List.mem_of_getElem? at', here⟩⟩
  have late : ∀ i r, bisect (startsAbove l x) 0 l.length ≤ i → l[i]? = some r → x < r.lo :=
    fun i r le at' => by
      have bound := (List.getElem?_eq_some_iff.mp at').1
      simpa [startsAbove, at'] using after i le (by omega)
  rw [holds_iff, contains]
  split
  · next none =>
      refine iff_of_false (by simp) ?_
      rintro ⟨i, r, at', here, -⟩
      have := late i r (by omega) at'
      omega
  · next i last =>
      have bound : i < l.length := by omega
      have start : l[i].lo ≤ x := by
        simpa [startsAbove, List.getElem?_eq_getElem bound] using before i (by omega) (by omega)
      rw [List.getElem?_eq_getElem bound, Option.any_some, decide_eq_true_eq]
      constructor
      · exact fun le => ⟨i, l[i], List.getElem?_eq_getElem bound, start, le⟩
      · rintro ⟨j, r, at', here⟩
        obtain ⟨bound', rfl⟩ := List.getElem?_eq_some_iff.mp at'
        rcases Nat.lt_trichotomy j i with early | rfl | beyond
        · have order := List.pairwise_iff_getElem.mp separated.2 j i bound' bound early
          have := here.2
          omega
        · exact here.2
        · have := late j _ (by omega) at'
          have := here.1
          omega

/-! ### Listing and counting -/

theorem listFrom?_eq {next : Int} (first : Width.word.Fits lo) (last : Width.word.Fits hi)
    (le : lo ≤ next) : listFrom? hi next = some (Interval.toList ⟨next, hi⟩) := by
  fun_induction listFrom? hi next with
  | case1 next room ih =>
      have fit := first.between last le room
      rw [Interval.toList_of_le room, Width.check_eq fit, Width.check_eq fit.next, ih (by omega)]
      rfl
  | case2 next beyond => rw [Interval.toList_of_lt (Int.not_le.mp beyond)]

/-- Also an interval that reaches up to the largest short word is listed to its end. -/
theorem toList?_eq (fits : s.InWords) : toList? s.intervals = some s.toList := by
  have ends : ∀ r ∈ s.intervals, Width.word.Fits r.lo ∧ Width.word.Fits r.hi := fun _ => fits.ends
  unfold SymbolSet.toList
  generalize s.intervals = l at ends
  induction l with
  | nil => rfl
  | cons r rest ih =>
      obtain ⟨⟨first, last⟩, others⟩ := List.forall_mem_cons.mp ends
      rw [toList?, listFrom?_eq first last (Int.le_refl _), ih others, List.flatMap_cons]
      rfl

/-- The sum does not wrap around when it is a word of 64 bits. -/
theorem addSize?_eq {n : Nat} {r : Interval} (first : Width.word.Fits r.lo)
    (last : Width.word.Fits r.hi) (nonempty : r.lo ≤ r.hi)
    (room : n + r.size < 18446744073709551616) : addSize? n r = some (n + r.size) := by
  rw [Width.word_fits] at first last
  have span : Width.long.Fits (r.hi - r.lo) := by
    simp only [Width.Fits, Width.greatest]
    omega
  have count : Width.long.Fits (r.hi - r.lo + 1) := by
    simp only [Width.Fits, Width.greatest]
    omega
  have sum : (n + ((r.hi - r.lo + 1) % 18446744073709551616).toNat) % 18446744073709551616 =
      n + r.size := by
    simp only [Interval.size] at room ⊢
    omega
  rw [addSize?, Width.check_eq span, Option.bind_eq_bind, Option.bind_some, Width.check_eq count,
    Option.bind_some, sum]
  rfl

theorem addSizes?_eq {n : Nat} (ends : ∀ r ∈ l, Width.word.Fits r.lo ∧ Width.word.Fits r.hi)
    (nonempty : ∀ r ∈ l, r.lo ≤ r.hi)
    (room : n + l.foldr (fun r n => r.size + n) 0 < 18446744073709551616) :
    l.foldlM addSize? n = some (n + l.foldr (fun r n => r.size + n) 0) := by
  induction l generalizing n with
  | nil => rfl
  | cons r rest ih =>
      obtain ⟨⟨first, last⟩, ends⟩ := List.forall_mem_cons.mp ends
      obtain ⟨order, nonempty⟩ := List.forall_mem_cons.mp nonempty
      rw [List.foldr_cons] at room ⊢
      rw [List.foldlM_cons, addSize?_eq first last order (by omega), Option.bind_eq_bind,
        Option.bind_some, ih ends nonempty (by omega), Nat.add_assoc]

theorem size?_eq (fits : s.InWords) (room : s.size < 18446744073709551616) :
    size? s.intervals = some s.size := by
  have sum := addSizes?_eq (n := 0) (fun _ => fits.ends) s.separated.1
    (by rw [Nat.zero_add]; exact room)
  rwa [Nat.zero_add] at sum

end Words

end GrammarNet
