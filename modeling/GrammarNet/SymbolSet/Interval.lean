import GrammarNet.Symbol

/-!
Closed intervals of symbols and the lists of them that stand for a set.

A list is `Separated` when its intervals are non-empty, ascending, disjoint and not adjacent, which
makes it the only such list with its symbols (`Separated.eq_of_mem_iff`). The operations below keep
lists separated, and each has a lemma that says which symbols its result holds.
-/

namespace GrammarNet

/-- The symbols from `lo` to `hi`, both included. -/
structure Interval where
  lo : Int
  hi : Int
  deriving DecidableEq, Repr

namespace Interval

/-- The symbol lies in the interval. -/
def Holds (r : Interval) (x : Int) : Prop :=
  r.lo ≤ x ∧ x ≤ r.hi

instance (r : Interval) (x : Int) : Decidable (r.Holds x) :=
  inferInstanceAs (Decidable (_ ∧ _))

/-- The number of symbols in the interval. -/
def size (r : Interval) : Nat :=
  (r.hi - r.lo + 1).toNat

/-- The symbols of the interval in ascending order. -/
def toList (r : Interval) : List Int :=
  (List.range r.size).map fun (i : Nat) => r.lo + i

theorem mem_toList {r : Interval} {x : Int} : x ∈ r.toList ↔ r.Holds x := by
  simp only [toList, size, List.mem_map, List.mem_range, Holds]
  constructor
  · rintro ⟨i, hi, rfl⟩
    omega
  · intro h
    exact ⟨(x - r.lo).toNat, by omega, by omega⟩

theorem length_toList (r : Interval) : r.toList.length = r.size := by
  simp [toList]

theorem toList_of_lt {lo hi : Int} (empty : hi < lo) : toList ⟨lo, hi⟩ = [] := by
  have none : size ⟨lo, hi⟩ = 0 := Int.toNat_eq_zero.mpr (by simp only; omega)
  rw [toList, none, List.range_zero, List.map_nil]

theorem toList_of_le {lo hi : Int} (nonempty : lo ≤ hi) :
    toList ⟨lo, hi⟩ = lo :: toList ⟨lo + 1, hi⟩ := by
  have one : size ⟨lo, hi⟩ = size ⟨lo + 1, hi⟩ + 1 := by
    simp only [size]
    omega
  rw [toList, one, List.range_succ_eq_map, List.map_cons, List.map_map, toList, List.cons.injEq]
  refine ⟨Int.add_zero lo, List.map_congr_left fun i _ => ?_⟩
  simp only [Function.comp_apply]
  omega

/-- The symbols of an interval are listed in ascending order. -/
theorem pairwise_toList (r : Interval) : r.toList.Pairwise (· < ·) :=
  List.pairwise_map.mpr (List.pairwise_lt_range.imp fun order => by omega)

end Interval

namespace Intervals

/-- The symbol lies in one of the intervals. -/
def Holds (l : List Interval) (x : Int) : Prop :=
  ∃ r ∈ l, r.Holds x

instance (l : List Interval) (x : Int) : Decidable (Holds l x) :=
  inferInstanceAs (Decidable (∃ r ∈ l, r.Holds x))

@[simp] theorem holds_nil {x : Int} : ¬ Holds [] x := by
  simp [Holds]

@[simp] theorem holds_cons {r : Interval} {l : List Interval} {x : Int} :
    Holds (r :: l) x ↔ r.Holds x ∨ Holds l x := by
  simp [Holds]

@[simp] theorem holds_append {l m : List Interval} {x : Int} :
    Holds (l ++ m) x ↔ Holds l x ∨ Holds m x := by
  simp [Holds, or_and_right, exists_or]

/-- The intervals are non-empty and ascending, and there is a gap between any two. -/
def Separated (l : List Interval) : Prop :=
  (∀ r ∈ l, r.lo ≤ r.hi) ∧ l.Pairwise fun r s => r.hi + 1 < s.lo

instance (l : List Interval) : Decidable (Separated l) :=
  inferInstanceAs (Decidable (_ ∧ _))

theorem separated_nil : Separated [] := by
  simp [Separated]

theorem separated_cons {r : Interval} {l : List Interval} :
    Separated (r :: l) ↔ r.lo ≤ r.hi ∧ (∀ s ∈ l, r.hi + 1 < s.lo) ∧ Separated l := by
  simp only [Separated, List.mem_cons, forall_eq_or_imp, List.pairwise_cons]
  constructor
  · rintro ⟨⟨h₁, h₂⟩, h₃, h₄⟩; exact ⟨h₁, h₃, h₂, h₄⟩
  · rintro ⟨h₁, h₃, h₂, h₄⟩; exact ⟨⟨h₁, h₂⟩, h₃, h₄⟩

/-- In a separated list all symbols lie at or above the start of the first interval. -/
theorem Separated.lo_le {r : Interval} {l : List Interval} (h : Separated (r :: l)) {x : Int}
    (hx : Holds (r :: l) x) : r.lo ≤ x := by
  obtain ⟨h₁, h₂, h₃⟩ := separated_cons.1 h
  rcases holds_cons.1 hx with hx | ⟨s, hs, hx⟩
  · exact hx.1
  · have := h₂ s hs
    have := hx.1
    omega

/-- In a separated list the symbols after the first interval lie beyond the gap behind it. -/
theorem Separated.hi_lt {r : Interval} {l : List Interval} (h : Separated (r :: l)) {x : Int}
    (hx : Holds l x) : r.hi + 1 < x := by
  obtain ⟨_, h₂, _⟩ := separated_cons.1 h
  obtain ⟨s, hs, hx⟩ := hx
  have := h₂ s hs
  have := hx.1
  omega

/-- A separated list is determined by its symbols. -/
theorem Separated.eq_of_holds_iff {l m : List Interval} (hl : Separated l) (hm : Separated m)
    (h : ∀ x, Holds l x ↔ Holds m x) : l = m := by
  induction l generalizing m with
  | nil =>
      cases m with
      | nil => rfl
      | cons s m =>
          have := (h s.lo).2 (holds_cons.2 (.inl ⟨Int.le_refl _, (separated_cons.1 hm).1⟩))
          simp at this
  | cons r l ih =>
      cases m with
      | nil =>
          have := (h r.lo).1 (holds_cons.2 (.inl ⟨Int.le_refl _, (separated_cons.1 hl).1⟩))
          simp at this
      | cons s m =>
          have hr := (separated_cons.1 hl).1
          have hs := (separated_cons.1 hm).1
          have lo : r.lo = s.lo := by
            have h₁ := hm.lo_le ((h r.lo).1 (holds_cons.2 (.inl ⟨Int.le_refl _, hr⟩)))
            have h₂ := hl.lo_le ((h s.lo).2 (holds_cons.2 (.inl ⟨Int.le_refl _, hs⟩)))
            omega
          have hi : r.hi = s.hi := by
            rcases Int.lt_trichotomy r.hi s.hi with hlt | heq | hgt
            · rcases holds_cons.1 ((h (r.hi + 1)).2 (holds_cons.2 (.inl (by
                constructor <;> omega)))) with hx | hx
              · have := hx.2; omega
              · have := hl.hi_lt hx; omega
            · exact heq
            · rcases holds_cons.1 ((h (s.hi + 1)).1 (holds_cons.2 (.inl (by
                constructor <;> omega)))) with hx | hx
              · have := hx.2; omega
              · have := hm.hi_lt hx; omega
          have rs : r = s := by
            cases r; cases s; simp_all
          subst rs
          congr 1
          refine ih (separated_cons.1 hl).2.2 (separated_cons.1 hm).2.2 fun x => ?_
          constructor
          · intro hx
            rcases holds_cons.1 ((h x).1 (holds_cons.2 (.inr hx))) with hy | hy
            · have := hl.hi_lt hx; have := hy.2; omega
            · exact hy
          · intro hx
            rcases holds_cons.1 ((h x).2 (holds_cons.2 (.inr hx))) with hy | hy
            · have := hm.hi_lt hx; have := hy.2; omega
            · exact hy

/-! ### Insertion -/

/-- Puts an interval into a list, joining it with the intervals it overlaps or touches. -/
def insert (r : Interval) : List Interval → List Interval
  | [] => [r]
  | s :: rest =>
      if r.hi + 1 < s.lo then r :: s :: rest
      else if s.hi + 1 < r.lo then s :: insert r rest
      else insert ⟨min r.lo s.lo, max r.hi s.hi⟩ rest

/-- Insertion starts no earlier than the list and the interval do. -/
theorem lt_of_mem_insert {r : Interval} {l : List Interval} {b : Int} (hr : b < r.lo)
    (hl : ∀ s ∈ l, b < s.lo) : ∀ s ∈ insert r l, b < s.lo := by
  induction l generalizing r with
  | nil => simpa [insert] using hr
  | cons t rest ih =>
      have ht := hl t List.mem_cons_self
      have hrest := fun s hs => hl s (List.mem_cons_of_mem t hs)
      intro s hs
      rw [insert] at hs
      split at hs
      · rcases List.mem_cons.1 hs with rfl | hs
        · exact hr
        · exact hl s hs
      · split at hs
        · rcases List.mem_cons.1 hs with rfl | hs
          · exact ht
          · exact ih hr hrest s hs
        · exact ih (show b < min r.lo t.lo by omega) hrest s hs

theorem separated_insert {r : Interval} {l : List Interval} (hr : r.lo ≤ r.hi)
    (hl : Separated l) : Separated (insert r l) := by
  induction l generalizing r with
  | nil => simp [insert, Separated, hr]
  | cons s rest ih =>
      obtain ⟨h₁, h₂, h₃⟩ := separated_cons.1 hl
      rw [insert]
      split
      · next gap =>
          refine separated_cons.2 ⟨hr, fun t ht => ?_, hl⟩
          rcases List.mem_cons.1 ht with rfl | ht
          · exact gap
          · have := h₂ t ht; omega
      · split
        · next gap => exact separated_cons.2 ⟨h₁, lt_of_mem_insert gap h₂, ih hr h₃⟩
        · exact ih (show min r.lo s.lo ≤ max r.hi s.hi by omega) h₃

theorem holds_insert {r : Interval} {l : List Interval} (hr : r.lo ≤ r.hi) (hl : Separated l)
    {x : Int} : Holds (insert r l) x ↔ r.Holds x ∨ Holds l x := by
  induction l generalizing r with
  | nil => simp [insert]
  | cons s rest ih =>
      obtain ⟨h₁, h₂, h₃⟩ := separated_cons.1 hl
      rw [insert]
      split
      · simp
      · split
        · rw [holds_cons, holds_cons, ih hr h₃]
          constructor
          · rintro (h | h | h)
            · exact .inr (.inl h)
            · exact .inl h
            · exact .inr (.inr h)
          · rintro (h | h | h)
            · exact .inr (.inl h)
            · exact .inl h
            · exact .inr (.inr h)
        · rw [ih (show min r.lo s.lo ≤ max r.hi s.hi by omega) h₃, holds_cons, ← or_assoc]
          refine or_congr_left ?_
          simp only [Interval.Holds]
          omega

/-! ### Removal -/

/-- Takes one symbol out of a list, splitting the interval that holds it. -/
def remove (x : Int) : List Interval → List Interval
  | [] => []
  | r :: rest =>
      if x < r.lo then r :: rest
      else if r.hi < x then r :: remove x rest
      else
        (if r.lo < x then [⟨r.lo, x - 1⟩] else []) ++
          (if x < r.hi then [⟨x + 1, r.hi⟩] else []) ++ rest

theorem holds_remove {x : Int} {l : List Interval} (hl : Separated l) {y : Int} :
    Holds (remove x l) y ↔ Holds l y ∧ y ≠ x := by
  induction l with
  | nil => simp [remove]
  | cons r rest ih =>
      obtain ⟨h₁, h₂, h₃⟩ := separated_cons.1 hl
      rw [remove]
      split
      · next below =>
          refine ⟨fun h => ⟨h, ?_⟩, And.left⟩
          have := hl.lo_le h
          omega
      · split
        · rw [holds_cons, holds_cons, ih h₃]
          simp only [Interval.Holds]
          constructor
          · rintro (h | ⟨h, h'⟩)
            · exact ⟨.inl h, by omega⟩
            · exact ⟨.inr h, h'⟩
          · rintro ⟨h | h, h'⟩
            · exact .inl h
            · exact .inr ⟨h, h'⟩
        · rw [holds_append, holds_append, holds_cons]
          have beyond : Holds rest y → r.hi + 1 < y := hl.hi_lt
          by_cases hy : Holds rest y
          · simp only [hy, or_true, true_and, true_iff]
            have := beyond hy
            omega
          · simp only [hy, or_false]
            split <;> split <;>
              simp only [holds_cons, holds_nil, or_false, false_or, false_iff, Interval.Holds] <;>
              omega

theorem separated_remove {x : Int} {l : List Interval} (hl : Separated l) :
    Separated (remove x l) ∧ ∀ b, (∀ s ∈ l, b < s.lo) → ∀ s ∈ remove x l, b < s.lo := by
  induction l with
  | nil => exact ⟨separated_nil, by simp [remove]⟩
  | cons r rest ih =>
      obtain ⟨h₁, h₂, h₃⟩ := separated_cons.1 hl
      rw [remove]
      split
      · exact ⟨hl, fun _ h => h⟩
      · split
        · refine ⟨separated_cons.2 ⟨h₁, (ih h₃).2 _ h₂, (ih h₃).1⟩, fun b hb s hs => ?_⟩
          rcases List.mem_cons.1 hs with rfl | hs
          · exact hb _ List.mem_cons_self
          · exact (ih h₃).2 b (fun t ht => hb t (List.mem_cons_of_mem _ ht)) s hs
        · have near : ∀ s ∈ rest, x + 1 < s.lo := fun s hs => by have := h₂ s hs; omega
          refine ⟨?_, fun b hb => ?_⟩
          · split <;> split <;> simp only [List.cons_append, List.nil_append, separated_cons,
              List.mem_cons, forall_eq_or_imp, h₃, and_true]
            · exact ⟨by omega, ⟨by omega, fun s hs => by have := near s hs; omega⟩, by omega, h₂⟩
            · exact ⟨by omega, fun s hs => by have := near s hs; omega⟩
            · exact ⟨by omega, h₂⟩
          · have hr := hb r List.mem_cons_self
            have hrest := fun s hs => hb s (List.mem_cons_of_mem r hs)
            split <;> split <;> simp only [List.cons_append, List.nil_append, List.mem_cons,
              forall_eq_or_imp]
            · exact ⟨hr, by omega, hrest⟩
            · exact ⟨hr, hrest⟩
            · exact ⟨by omega, hrest⟩
            · exact hrest

/-! ### Complement -/

/-- The intervals between `next` and `max` that a list leaves free. -/
def gaps (next max : Int) : List Interval → List Interval
  | [] => if next ≤ max then [⟨next, max⟩] else []
  | r :: rest =>
      if r.hi < next then gaps next max rest
      else if max < r.lo then if next ≤ max then [⟨next, max⟩] else []
      else if next < r.lo then ⟨next, r.lo - 1⟩ :: gaps (r.hi + 1) max rest
      else gaps (r.hi + 1) max rest

theorem holds_gaps {next max : Int} {l : List Interval} (hl : Separated l) {x : Int} :
    Holds (gaps next max l) x ↔ next ≤ x ∧ x ≤ max ∧ ¬ Holds l x := by
  induction l generalizing next with
  | nil =>
      rw [gaps]
      split
      · simp [Interval.Holds]
      · simp; omega
  | cons r rest ih =>
      obtain ⟨h₁, h₂, h₃⟩ := separated_cons.1 hl
      have beyond : Holds rest x → r.hi + 1 < x := hl.hi_lt
      rw [gaps]
      split
      · rw [ih h₃, holds_cons, not_or]
        refine and_congr_right fun h => and_congr_right fun _ => ?_
        simp only [Interval.Holds]
        exact ⟨fun h' => ⟨by omega, h'⟩, And.right⟩
      · split
        · have none : Holds (r :: rest) x → max < x := fun h => by
            have := hl.lo_le h; omega
          split
          · rw [holds_cons]
            simp only [holds_nil, or_false, Interval.Holds]
            exact ⟨fun h => ⟨h.1, h.2, fun h' => by have := none h'; omega⟩,
              fun h => ⟨h.1, h.2.1⟩⟩
          · simp only [holds_nil, false_iff]
            rintro ⟨_, _, _⟩
            omega
        · split
          · rw [holds_cons, ih h₃, holds_cons, not_or]
            simp only [Interval.Holds]
            constructor
            · rintro (h | ⟨h, h', h''⟩)
              · exact ⟨h.1, by omega, by omega, fun h' => by have := beyond h'; omega⟩
              · exact ⟨by omega, h', by omega, h''⟩
            · rintro ⟨h, h', h'', h'''⟩
              by_cases hx : x ≤ r.lo - 1
              · exact .inl ⟨h, hx⟩
              · exact .inr ⟨by omega, h', h'''⟩
          · rw [ih h₃, holds_cons, not_or]
            simp only [Interval.Holds]
            constructor
            · rintro ⟨h, h', h''⟩
              exact ⟨by omega, h', by omega, h''⟩
            · rintro ⟨h, h', h'', h'''⟩
              exact ⟨by omega, h', h'''⟩

theorem separated_gaps {next max : Int} {l : List Interval} (hl : Separated l) :
    Separated (gaps next max l) ∧ ∀ s ∈ gaps next max l, next ≤ s.lo := by
  induction l generalizing next with
  | nil =>
      rw [gaps]
      split <;> simp [Separated]
      assumption
  | cons r rest ih =>
      obtain ⟨h₁, h₂, h₃⟩ := separated_cons.1 hl
      rw [gaps]
      split
      · exact ih h₃
      · split
        · split <;> simp [Separated]
          assumption
        · split
          · obtain ⟨h₄, h₅⟩ := @ih (r.hi + 1) h₃
            refine ⟨separated_cons.2 ⟨by simp only; omega, fun s hs => ?_, h₄⟩, fun s hs => ?_⟩
            · have := h₅ s hs
              simp only
              omega
            · rcases List.mem_cons.1 hs with rfl | hs
              · exact Int.le_refl _
              · have := h₅ s hs
                omega
          · obtain ⟨h₄, h₅⟩ := @ih (r.hi + 1) h₃
            refine ⟨h₄, fun s hs => ?_⟩
            have := h₅ s hs
            omega

end Intervals

end GrammarNet
