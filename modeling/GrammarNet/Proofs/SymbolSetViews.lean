import GrammarNet.Proofs.SymbolSetComplements
import Mathlib.Data.Int.Interval

/-!
The views of a set of symbols.

A set is listed interval by interval, counted by the ends of its intervals, looked up by bisection
and made again by adding its symbols one by one. The list is the view that settles the others: it is
strictly ascending (`pairwise_toList`), so it has no symbol twice, and its symbols are short words,
so there are at most `2 ^ 32` of them (`size_le`). Hence neither the listing nor the sum of the
sizes overflows, also when the set reaches the largest short word. That the set can be made again
from the list in any order is extensionality: a set is determined by its symbols.
-/

namespace GrammarNet

namespace SymbolSet

variable {s : SymbolSet}

theorem pairwise_toList (s : SymbolSet) : s.toList.Pairwise (· < ·) := by
  obtain ⟨nonempty, gaps⟩ := s.separated
  refine List.pairwise_flatMap.mpr ⟨fun r _ => r.pairwise_toList, gaps.imp ?_⟩
  intro r t gap x first y second
  have below := (Interval.mem_toList.mp first).2
  have above := (Interval.mem_toList.mp second).1
  omega

/-- The list begins with the start of the first interval. -/
theorem head?_toList (symbols : s.isEmpty = false) : s.toList.head? = some s.min := by
  obtain ⟨l, separated⟩ := s
  cases l with
  | nil => cases symbols
  | cons r rest =>
      have nonempty : r.lo ≤ r.hi := separated.1 r List.mem_cons_self
      rw [toList, List.flatMap_cons, Interval.toList_of_le nonempty]
      rfl

/-- There are `2 ^ 32` short words. -/
theorem InWords.size_le (fits : s.InWords) : s.size ≤ 2 ^ 32 := by
  have nodup : s.toList.Nodup := s.pairwise_toList.imp Int.ne_of_lt
  have words : s.toList.toFinset ⊆ Finset.Icc (-2147483648) 2147483647 := fun x mem =>
    Finset.mem_Icc.mpr (fits x (mem_toList.mp (List.mem_toFinset.mp mem)))
  calc s.size = s.toList.length := s.length_toList.symm
    _ = s.toList.toFinset.card := (List.toFinset_card_of_nodup nodup).symm
    _ ≤ (Finset.Icc (-2147483648 : Int) 2147483647).card := Finset.card_le_card words
    _ = 2 ^ 32 := by rw [Int.card_Icc]; rfl

/-- The symbols of a set make it again, in whatever order they are added. -/
theorem ofList_of_perm {symbols : List Int} (order : symbols.Perm s.toList) :
    ofList symbols = s :=
  ext fun x => by rw [mem_ofList, order.mem_iff, mem_toList]

/-- All views of a set show the same symbols. The set is listed without an overflow, in strictly
ascending order, and bisection finds exactly what is listed. The length of the list is the size of
the set, and its head is the smallest symbol. Adding the symbols of the list one by one, in any
order, gives the intervals of the set. -/
theorem views_of_built (built : s.Built) :
    Words.toList? s.intervals = some s.toList ∧ s.toList.Pairwise (· < ·) ∧
      (∀ x, (x ∈ s.toList ↔ Words.contains s.intervals x = true) ∧
        (x ∈ s.toList ↔ s.contains x = true)) ∧
      Words.size? s.intervals = some s.toList.length ∧ s.size = s.toList.length ∧
      s.toList.length ≤ 2 ^ 32 ∧
      (s.isEmpty = false → s.toList.head? = some s.min) ∧
      ∀ symbols, symbols.Perm s.toList →
        Words.ofList? symbols = some s.intervals ∧ ofList symbols = s := by
  have fits := built.inWords
  have bound := fits.size_le
  refine ⟨Words.toList?_eq fits, s.pairwise_toList, fun x => ⟨?_, ?_⟩, ?_, s.length_toList.symm, ?_,
    head?_toList, fun symbols order => ?_⟩
  · exact mem_toList.trans (Words.contains_iff s.separated).symm
  · exact mem_toList.trans contains_iff.symm
  · rw [s.length_toList]
    exact Words.size?_eq fits (by omega)
  · rw [s.length_toList]
    exact bound
  · have again := ofList_of_perm order
    have words : ∀ x ∈ symbols, Width.word.Fits x := fun x mem =>
      fits x (mem_toList.mp (order.mem_iff.mp mem))
    exact ⟨(Words.ofList?_eq words).trans (congrArg (some ·.intervals) again), again⟩

/-- The largest set has `2 ^ 32` symbols. -/
example : (interval (-2147483648) 2147483647).size = 2 ^ 32 := by
  decide

/-- Symbols at both ends of the range of words, made with a gap at `2147483646`. -/
def farEnds : SymbolSet :=
  (((∅ : SymbolSet).add 2147483645 2147483647).remove 2147483646).add (-2147483648) (-2147483647)

theorem farEnds_built : farEnds.Built :=
  .add (.remove (.add .empty (by decide) (by decide)) (by decide)) (by decide) (by decide)

/-- They are listed up to the last, and make the set again from the last on. -/
theorem views_of_built_farEnds :
    farEnds.Built ∧
      Words.toList? farEnds.intervals =
        some [-2147483648, -2147483647, 2147483645, 2147483647] ∧
      Words.size? farEnds.intervals = some 4 ∧
      farEnds.min = -2147483648 ∧
      Words.ofList? [2147483647, -2147483648, 2147483645, -2147483647] =
        some farEnds.intervals := by
  obtain ⟨listed, -, -, counted, -, -, least, again⟩ := views_of_built farEnds_built
  have list : farEnds.toList = [-2147483648, -2147483647, 2147483645, 2147483647] := by decide
  rw [list] at listed counted least again
  exact ⟨farEnds_built, listed, counted, (Option.some.inj (least (by decide))).symm,
    (again _ (by decide)).1⟩

end SymbolSet

end GrammarNet
