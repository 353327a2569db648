import GrammarNet.Proofs.Readers
import GrammarNet.SymbolSet.Display

/-!
Reading the text of a set of symbols back.

Without a vocabulary a symbol is written as a reserved name or as a number, and none of these has a
comma, a blank or a dot in it. So the commas of a text separate its parts, and two dots in a part
stand between the ends of an interval. A part is read from the front (`Reader.interval`), and the
parts together hold the symbols of the set, whether an interval was written by its ends or symbol by
symbol. Therefore the text tells which set it is of (`SymbolSet.text_readable`).
-/

namespace GrammarNet

namespace Reader

/-- Takes off a symbol that was written without a vocabulary. -/
def symbol : Reader Int := do
  if ← accepts "<EOF>" then return Symbol.endOfInput
  else if ← accepts "<EPSILON>" then return Symbol.epsilon
  else integer

/-- Takes off an interval: a symbol, or its two ends with two dots between them. -/
def interval : Reader Interval := do
  let lo ← symbol
  if ← accepts ".." then
    let hi ← symbol
    return ⟨lo, hi⟩
  else return ⟨lo, lo⟩

/-! ### Symbols and intervals -/

variable {x : Int} {rest : List Char}

theorem text_of_plain (named : x ≠ Symbol.endOfInput) (named' : x ≠ Symbol.epsilon) :
    Vocabulary.text [] x = toString x := by
  have unnamed : Vocabulary.name? [] x = none := by
    unfold Vocabulary.name?
    split <;> rfl
  rw [Vocabulary.text, if_neg named, if_neg named', unnamed]
  rfl

/-- A number does not begin with an angle bracket. -/
theorem not_prefix_toString {word : List Char} :
    ¬ '<' :: word <+: (toString x).toList ++ rest := by
  obtain ⟨c, digits, split⟩ := List.exists_cons_of_ne_nil (toList_toString_int_ne_nil x)
  have plain : c.isDigit = true ∨ c = '-' :=
    isDigit_of_mem_toString_int (x := x) (split ▸ List.mem_cons_self)
  rw [split]
  refine not_prefix_of_head rfl rfl ?_
  rintro rfl
  exact absurd plain (by decide)

theorem symbol_append (x : Int) (ends : Undigited rest) :
    symbol.run ((Vocabulary.text [] x).toList ++ rest) = some (x, rest) := by
  by_cases named : x = Symbol.endOfInput
  · subst named
    exact run_bind (accepts_append "<EOF>" rest)
  by_cases named' : x = Symbol.epsilon
  · subst named'
    have other : ¬ "<EOF>".toList <+: "<EPSILON>".toList ++ rest := by simp
    exact (run_bind (accepts_eq_false other)).trans (run_bind (accepts_append "<EPSILON>" rest))
  · rw [text_of_plain named named']
    calc symbol.run ((toString x).toList ++ rest)
      _ = _ := run_bind (accepts_eq_false not_prefix_toString)
      _ = _ := run_bind (accepts_eq_false not_prefix_toString)
      _ = some (x, rest) := integer_append x ends

theorem interval_of_symbol (x : Int) :
    interval.whole? (Vocabulary.text [] x).toList = some ⟨x, x⟩ := by
  apply whole?_eq
  have first := symbol_append x undigited_nil
  rw [List.append_nil] at first
  exact (run_bind first).trans (run_bind (accepts_eq_false (by simp)))

theorem interval_of_ends (lo hi : Int) :
    interval.whole? (Vocabulary.text [] lo ++ ".." ++ Vocabulary.text [] hi).toList =
      some ⟨lo, hi⟩ := by
  apply whole?_eq
  have last := symbol_append hi undigited_nil
  rw [List.append_nil] at last
  rw [String.toList_append, String.toList_append, List.append_assoc]
  calc interval.run _
    _ = _ := run_bind (symbol_append lo (undigited_of_head rfl rfl))
    _ = _ := run_bind (accepts_append ".." _)
    _ = some (⟨lo, hi⟩, []) := run_bind last

end Reader

namespace SymbolSet

/-! ### Parts of a text -/

/-- The parts of a text between braces, which are separated by commas. Blanks do not count. -/
def parts? (text : List Char) : Option (List (List Char)) :=
  match text with
  | '\x7b' :: rest =>
      if rest = ['\x7d'] then some []
      else if rest.getLast? = some '\x7d' then
        some ((rest.dropLast.filter (· ≠ ' ')).splitOn ',')
      else none
  | _ => none

/-- A part has no comma and no blank in it. -/
def IsPart (part : List Char) : Prop :=
  part ≠ [] ∧ ∀ c ∈ part, c ≠ ',' ∧ c ≠ ' '

theorem filter_blanks {parts : List (List Char)} (plain : ∀ part ∈ parts, IsPart part) :
    ([',', ' '].intercalate parts).filter (· ≠ ' ') = [','].intercalate parts := by
  have kept : ∀ part, IsPart part → part.filter (· ≠ ' ') = part := fun part ⟨_, plain⟩ =>
    List.filter_eq_self.mpr fun c mem => decide_eq_true (plain c mem).2
  induction parts with
  | nil => rfl
  | cons part parts ih =>
      obtain ⟨first, others⟩ := List.forall_mem_cons.mp plain
      cases parts with
      | nil =>
          rw [List.intercalate_singleton, List.intercalate_singleton]
          exact kept part first
      | cons next parts =>
          rw [List.intercalate_cons_cons, List.intercalate_cons_cons, List.filter_append,
            List.filter_append, kept part first, ih others]
          rfl

theorem parts?_braces {parts : List (List Char)} (plain : ∀ part ∈ parts, IsPart part) :
    parts? ('\x7b' :: ([',', ' '].intercalate parts ++ ['\x7d'])) = some parts := by
  cases parts with
  | nil => rfl
  | cons part parts =>
      have separated : ∀ other ∈ part :: parts, ',' ∉ other := fun other mem comma =>
        ((plain other mem).2 _ comma).1 rfl
      have nonempty : [',', ' '].intercalate (part :: parts) ≠ [] := by
        have first := (plain part List.mem_cons_self).1
        cases parts with
        | nil => simpa using first
        | cons next parts => simp [first]
      rw [parts?, if_neg (by simpa using nonempty), if_pos List.getLast?_concat,
        List.dropLast_concat, filter_blanks plain,
        List.splitOn_intercalate ',' separated (List.cons_ne_nil _ _)]

theorem isPart_symbol (x : Int) : IsPart (Vocabulary.text [] x).toList := by
  by_cases named : x = Symbol.endOfInput
  · subst named
    have part : IsPart "<EOF>".toList := ⟨List.cons_ne_nil _ _, by simp⟩
    exact part
  by_cases named' : x = Symbol.epsilon
  · subst named'
    have part : IsPart "<EPSILON>".toList := ⟨List.cons_ne_nil _ _, by simp⟩
    exact part
  rw [Reader.text_of_plain named named']
  refine ⟨Reader.toList_toString_int_ne_nil x, fun c mem => ?_⟩
  constructor <;> rintro rfl <;> exact absurd (Reader.isDigit_of_mem_toString_int mem) (by decide)

theorem isPart_ends (lo hi : Int) :
    IsPart (Vocabulary.text [] lo ++ ".." ++ Vocabulary.text [] hi).toList := by
  obtain ⟨nonempty, first⟩ := isPart_symbol lo
  obtain ⟨-, last⟩ := isPart_symbol hi
  rw [String.toList_append, String.toList_append]
  refine ⟨by simp [nonempty], fun c mem => ?_⟩
  rcases List.mem_append.mp mem with mem | mem
  · rcases List.mem_append.mp mem with mem | dots
    · exact first c mem
    · obtain rfl : c = '.' := by simpa using dots
      decide
  · exact last c mem

end SymbolSet

namespace Interval

variable {r : Interval} {x : Int}

/-- The intervals that the parts of the text of an interval stand for. -/
def shown (r : Interval) : List Interval :=
  if r.lo = r.hi ∨ r.lo < 0 then r.toList.map fun x => ⟨x, x⟩ else [r]

/-- They hold what the interval holds. -/
theorem holds_shown : Intervals.Holds r.shown x ↔ r.Holds x := by
  unfold shown
  split
  · have single : ∀ y, (⟨y, y⟩ : Interval).Holds x ↔ y = x := fun y => by
      simp only [Holds]
      omega
    simp only [Intervals.Holds, List.mem_map, exists_exists_and_eq_and, single, mem_toList,
      exists_eq_right]
  · simp

/-- A text of an interval is a part that is read as one of the intervals shown. -/
theorem texts_read :
    (r.texts []).mapM (Reader.interval.whole? ∘ String.toList) = some r.shown := by
  have single : ∀ x, (Reader.interval.whole? ∘ String.toList) (Vocabulary.text [] x) =
      some ⟨x, x⟩ := fun x => by rw [Function.comp_apply, Reader.interval_of_symbol]
  unfold texts shown
  simp only [ne_eq, not_true_eq_false, or_false]
  split
  · exact Reader.mapM_map_eq single r.toList
  · rw [List.mapM_cons, Function.comp_apply, Reader.interval_of_ends]
    rfl

theorem isPart_of_mem_texts {text : String} (mem : text ∈ r.texts []) :
    SymbolSet.IsPart text.toList := by
  unfold texts at mem
  split at mem
  · obtain ⟨x, -, rfl⟩ := List.mem_map.mp mem
    exact SymbolSet.isPart_symbol x
  · rw [List.mem_singleton.mp mem]
    exact SymbolSet.isPart_ends r.lo r.hi

end Interval

namespace SymbolSet

/-! ### Sets -/

/-- The set with this text. -/
def read? (text : String) : Option SymbolSet := do
  let parts ← parts? text.toList
  let intervals ← parts.mapM Reader.interval.whole?
  return intervals.foldl (fun s r => s.add r.lo r.hi) ∅

theorem parts?_text (s : SymbolSet) :
    parts? (s.text []).toList = some ((s.intervals.flatMap (Interval.texts [])).map String.toList) := by
  have braces : (s.text []).toList =
      '\x7b' :: ([',', ' '].intercalate
        ((s.intervals.flatMap (Interval.texts [])).map String.toList) ++ ['\x7d']) := by
    rw [text, String.toList_append, String.toList_append, String.toList_intercalate]
    rfl
  rw [braces]
  refine parts?_braces fun part mem => ?_
  obtain ⟨text, written, rfl⟩ := List.mem_map.mp mem
  obtain ⟨r, -, written⟩ := List.mem_flatMap.mp written
  exact Interval.isPart_of_mem_texts written

theorem holds_flatMap_shown {l : List Interval} {x : Int} :
    Intervals.Holds (l.flatMap Interval.shown) x ↔ Intervals.Holds l x := by
  induction l with
  | nil => rfl
  | cons r rest ih =>
      rw [List.flatMap_cons, Intervals.holds_append, Interval.holds_shown, ih, Intervals.holds_cons]

theorem read?_text (s : SymbolSet) : read? (s.text []) = some s := by
  have same : (s.intervals.flatMap Interval.shown).foldl (fun s r => s.add r.lo r.hi) ∅ = s :=
    ext fun x => by
      rw [mem_foldl_add, holds_flatMap_shown, or_iff_right not_mem_empty]
      rfl
  rw [read?, parts?_text, Option.bind_eq_bind, Option.bind_some, List.mapM_map,
    Reader.mapM_flatMap_eq fun _ => Interval.texts_read, Option.bind_eq_bind, Option.bind_some, same]
  rfl

/-- A set can be read back from its text without a vocabulary, and no two sets have one text. -/
theorem text_readable (s t : SymbolSet) :
    read? (s.text []) = some s ∧ (s.text [] = t.text [] ↔ s = t) := by
  refine ⟨read?_text s, fun same => ?_, congrArg (text · [])⟩
  have read := read?_text s
  rw [same, read?_text t] at read
  exact (Option.some.inj read).symm

/-- An interval below zero is read symbol by symbol, and one above by its ends. -/
example : read? "\x7b-3, <EPSILON>, <EOF>, 0, 7, 10..12\x7d" =
    some (((interval (-3) 0).addSymbol 7).add 10 12) := by
  decide

end SymbolSet

end GrammarNet
