import GrammarNet.SymbolSet.Words

/-!
Complements of sets of symbols, over the whole range of short words.

A set is `Built` when the changes make it from nothing, with complements among them. All its symbols
are short words then (`Built.inWords`), so its intervals are what the operations in words expect.

A complement is made in one pass over the intervals. The pass keeps the next free symbol as a long
word, because it lies behind the largest short word when the set reaches up to there, and writes it
down as a short word only in front of an interval or of the upper bound (`Words.gaps?_eq_gaps`). So
no bound is too large or too small for a complement, and the complement of a complement has the
symbols of the set between the bounds (`complement_of_built`).
-/

namespace GrammarNet

namespace Words

open Intervals

/-- Non-empty intervals of short words with gaps between them, which hold the symbols that satisfy
the property, and in which bisection finds these. -/
structure Represents (l : List Interval) (P : Int → Prop) : Prop where
  separated : Separated l
  fits : ∀ r ∈ l, Width.word.Fits r.lo ∧ Width.word.Fits r.hi
  holds : ∀ x, Holds l x ↔ P x
  finds : ∀ x, contains l x = true ↔ P x

theorem represents {s : SymbolSet} {P : Int → Prop} (fits : s.InWords) (mem : ∀ x, x ∈ s ↔ P x) :
    Represents s.intervals P where
  separated := s.separated
  fits _ := fits.ends
  holds := mem
  finds x := (contains_iff s.separated).trans (mem x)

end Words

namespace SymbolSet

/-- Changes and complements make the set from nothing, with short words for all symbols they are
given. -/
inductive Built : SymbolSet → Prop where
  | empty : Built ∅
  | add {s : SymbolSet} {lo hi : Int} :
      Built s → Width.word.Fits lo → Width.word.Fits hi → Built (s.add lo hi)
  | union {s t : SymbolSet} : Built s → Built t → Built (s ∪ t)
  | remove {s : SymbolSet} {x : Int} : Built s → Width.word.Fits x → Built (s.remove x)
  | complement {s : SymbolSet} {lo hi : Int} :
      Built s → Width.word.Fits lo → Width.word.Fits hi → Built (s.complement lo hi)

variable {s : SymbolSet} {lo hi : Int}

theorem Built.inWords (built : s.Built) : s.InWords := by
  induction built with
  | empty => exact inWords_empty
  | add _ first last ih => exact ih.add first last
  | union _ _ ih ih' => exact ih.union ih'
  | remove _ _ ih => exact ih.remove _
  | complement _ first last _ => exact inWords_complement first last

theorem mem_complement_complement {x : Int} :
    x ∈ (s.complement lo hi).complement lo hi ↔ lo ≤ x ∧ x ≤ hi ∧ x ∈ s := by
  rw [mem_complement, mem_complement]
  constructor
  · rintro ⟨above, below, taken⟩
    exact ⟨above, below, Decidable.byContradiction fun free => taken ⟨above, below, free⟩⟩
  · rintro ⟨above, below, mem⟩
    exact ⟨above, below, fun ⟨_, _, free⟩ => free mem⟩

/-- Between any two short words, also in the wrong order, the complement of a set is made without an
overflow. It has exactly the symbols that the set does not have, and the complement of it those that
the set has. -/
theorem complement_of_built (built : s.Built) (first : Width.word.Fits lo)
    (last : Width.word.Fits hi) :
    ∃ free back, Words.complement? lo hi s.intervals = some free ∧
      Words.complement? lo hi free = some back ∧
      Words.Represents free (fun x => lo ≤ x ∧ x ≤ hi ∧ ¬ x ∈ s) ∧
      Words.Represents back (fun x => lo ≤ x ∧ x ≤ hi ∧ x ∈ s) ∧
      free = (s.complement lo hi).intervals ∧
      back = ((s.complement lo hi).complement lo hi).intervals := by
  have inner : (s.complement lo hi).InWords := inWords_complement first last
  have outer : ((s.complement lo hi).complement lo hi).InWords := inWords_complement first last
  exact ⟨_, _, Words.complement?_eq built.inWords first last,
    Words.complement?_eq inner first last, Words.represents inner fun _ => mem_complement,
    Words.represents outer fun _ => mem_complement_complement, rfl, rfl⟩

/-- A set that reaches both ends of the range, with a gap that holds `-1` and `0`. -/
def bothEnds : SymbolSet :=
  (interval (-1) 0).complement (-2147483648) 2147483647

theorem bothEnds_built : bothEnds.Built :=
  .complement (.add .empty (by decide) (by decide)) (by decide) (by decide)

/-- Its complement over the whole range is that gap, and the complement of this is the set again. -/
theorem complement_of_built_bothEnds :
    bothEnds.Built ∧ Width.word.Fits (-2147483648) ∧ Width.word.Fits 2147483647 ∧
      Words.complement? (-2147483648) 2147483647 bothEnds.intervals = some [⟨-1, 0⟩] ∧
      Words.complement? (-2147483648) 2147483647 [⟨-1, 0⟩] = some bothEnds.intervals := by
  have least : Width.word.Fits (-2147483648) := by decide
  have greatest : Width.word.Fits 2147483647 := by decide
  obtain ⟨free, back, inner, outer, -, -, rfl, rfl⟩ :=
    complement_of_built bothEnds_built least greatest
  have gap : (bothEnds.complement (-2147483648) 2147483647).intervals = [⟨-1, 0⟩] := by decide
  rw [gap] at inner outer
  have again : ((bothEnds.complement (-2147483648) 2147483647).complement (-2147483648)
      2147483647).intervals = bothEnds.intervals := by decide
  rw [again] at outer
  exact ⟨bothEnds_built, least, greatest, inner, outer⟩

end SymbolSet

end GrammarNet
