import Mathlib.Data.List.TakeDrop
import Mathlib.Data.List.Basic

/-!
Readers of texts.

A reader takes what it reads off the front of a text and leaves the rest, or it refuses the text.
For each reader there is one lemma which says that it reads what was written, whatever follows:
`accepts_append`, `expect_append`, `upTo_append`, `natural_append`, `integer_append`. Digits only end
where something else follows, so the lemmas on numbers ask that what follows does not begin with a
digit.
-/

namespace GrammarNet

/-- Takes something off the front of a text, or refuses the text. -/
abbrev Reader := StateT (List Char) Option

namespace Reader

variable {α β : Type} {text rest : List Char} {word : String}

/-- Takes off a word, if the text begins with it. -/
def accepts (word : String) : Reader Bool := fun text =>
  match text.dropPrefix? word.toList with
  | some rest => some (true, rest)
  | none => some (false, text)

/-- Takes off a word with which the text has to begin. -/
def expect (word : String) : Reader Unit := do
  if ← accepts word then pure () else failure

/-- Takes off all digits and gives their number. -/
def natural : Reader Nat := fun text =>
  match text.span Char.isDigit with
  | ([], _) => none
  | (digits, rest) => some (Nat.ofDigitChars 10 digits 0, rest)

/-- Takes off a number, which may have a sign. -/
def integer : Reader Int := do
  if ← accepts "-" then
    let n ← natural
    return -n
  else
    let n ← natural
    return n

/-- Takes off all that stands before one of some characters. -/
def upTo (marks : List Char) : Reader String := fun text =>
  let (before, rest) := text.span fun c => !marks.contains c
  some (String.ofList before, rest)

/-- What is read when nothing is left. -/
def whole? (reader : Reader α) (text : List Char) : Option α :=
  match reader.run text with
  | some (a, []) => some a
  | _ => none

/-! ### Steps of a reader -/

theorem run_bind {first : Reader α} {next : α → Reader β} {a : α}
    (reads : first.run text = some (a, rest)) :
    (first >>= next).run text = (next a).run rest := by
  rw [StateT.run_bind, reads]
  rfl

theorem whole?_eq {reader : Reader α} {a : α} (reads : reader.run text = some (a, [])) :
    reader.whole? text = some a := by
  rw [whole?, reads]

theorem accepts_append (word : String) (rest : List Char) :
    (accepts word).run (word.toList ++ rest) = some (true, rest) := by
  have front : (word.toList ++ rest).dropPrefix? word.toList = some rest :=
    List.dropPrefix?_eq_some_iff.mpr ⟨_, rfl, BEq.rfl⟩
  simp only [accepts, StateT.run, front]

theorem accepts_eq_false (other : ¬ word.toList <+: text) :
    (accepts word).run text = some (false, text) := by
  have none : text.dropPrefix? word.toList = none := by
    cases front : text.dropPrefix? word.toList with
    | none => rfl
    | some rest =>
        obtain ⟨_, rfl, same⟩ := List.dropPrefix?_eq_some_iff.mp front
        exact absurd (eq_of_beq same ▸ List.prefix_append _ rest) other
  simp only [accepts, StateT.run, none]

/-- Texts that begin with different characters do not begin alike. -/
theorem not_prefix_of_head {front : List Char} {c d : Char} (first : front.head? = some c)
    (first' : text.head? = some d) (other : c ≠ d) : ¬ front <+: text := by
  rintro ⟨rest, rfl⟩
  rw [List.head?_append, first] at first'
  exact other (Option.some.inj first')

theorem expect_append (word : String) (rest : List Char) :
    (expect word).run (word.toList ++ rest) = some ((), rest) :=
  run_bind (accepts_append word rest)

/-! ### Pieces of a text -/

theorem mapM_map_eq {γ : Type} {write : α → β} {read : β → Option γ} {shown : α → γ}
    (reads : ∀ a, read (write a) = some (shown a)) (l : List α) :
    (l.map write).mapM read = some (l.map shown) := by
  induction l with
  | nil => rfl
  | cons a l ih =>
      rw [List.map_cons, List.mapM_cons, reads, ih]
      rfl

theorem mapM_flatMap_eq {γ : Type} {write : α → List β} {read : β → Option γ} {shown : α → List γ}
    (reads : ∀ a, (write a).mapM read = some (shown a)) (l : List α) :
    (l.flatMap write).mapM read = some (l.flatMap shown) := by
  induction l with
  | nil => rfl
  | cons a l ih =>
      rw [List.flatMap_cons, List.mapM_append, reads, ih]
      rfl

/-! ### Runs of characters -/

/-- A run of characters of one kind ends where another character follows. -/
theorem span_append {p : Char → Bool} {run : List Char} (all : ∀ c ∈ run, p c = true)
    (ends : ∀ c ∈ rest.head?, p c = false) : (run ++ rest).span p = (run, rest) := by
  rw [List.span_eq_takeWhile_dropWhile, List.takeWhile_append_of_pos all,
    List.dropWhile_append_of_pos all]
  cases rest with
  | nil => rw [List.takeWhile_nil, List.dropWhile_nil, List.append_nil]
  | cons c rest =>
      have other : ¬ p c = true := by
        rw [ends c rfl]
        exact Bool.false_ne_true
      rw [List.takeWhile_cons_of_neg other, List.dropWhile_cons_of_neg other, List.append_nil]

theorem upTo_append {marks : List Char} {mark : Char} (plain : ∀ c ∈ word.toList, c ∉ marks)
    (front : rest.head? = some mark) (ends : mark ∈ marks) :
    (upTo marks).run (word.toList ++ rest) = some (word, rest) := by
  have before : (word.toList ++ rest).span (fun c => !marks.contains c) = (word.toList, rest) := by
    refine span_append (fun c mem => ?_) fun c mem => ?_
    · simpa using plain c mem
    · obtain rfl := Option.some.inj (front.symm.trans mem)
      simpa using ends
  simp only [upTo, StateT.run, before, String.ofList_toList]

/-! ### Numbers -/

/-- The text does not begin with a digit. -/
def Undigited (text : List Char) : Prop :=
  ∀ c ∈ text.head?, c.isDigit = false

theorem undigited_nil : Undigited [] := by
  simp [Undigited]

theorem undigited_of_head {c : Char} (front : text.head? = some c) (other : c.isDigit = false) :
    Undigited text := by
  intro d mem
  obtain rfl : c = d := Option.some.inj (front.symm.trans mem)
  exact other

theorem isDigit_of_mem_toString {n : Nat} {c : Char} (mem : c ∈ (toString n).toList) :
    c.isDigit = true := by
  rw [Nat.toString_eq_ofList_toDigits, String.toList_ofList] at mem
  exact Nat.isDigit_of_mem_toDigits (by decide) (by decide) mem

theorem natural_append (n : Nat) (ends : Undigited rest) :
    natural.run ((toString n).toList ++ rest) = some (n, rest) := by
  have all : ∀ c ∈ (toString n).toList, c.isDigit = true := fun _ => isDigit_of_mem_toString
  simp only [natural, StateT.run, span_append all ends]
  rw [Nat.toString_eq_ofList_toDigits, String.toList_ofList]
  split
  · next none => exact absurd (congrArg Prod.fst none) Nat.toDigits_ne_nil
  · next digits rest' same =>
      cases same
      rw [Nat.ofDigitChars_ten_toDigits]

/-- An integer is written as its digits, or as a minus and the digits of its opposite. -/
theorem toString_int (x : Int) :
    (∃ n : Nat, x = n ∧ (toString x).toList = (toString n).toList) ∨
      ∃ n : Nat, x = -n ∧ (toString x).toList = "-".toList ++ (toString n).toList := by
  cases x with
  | ofNat n => exact .inl ⟨n, rfl, rfl⟩
  | negSucc n => exact .inr ⟨n + 1, rfl, String.toList_append⟩

theorem isDigit_of_mem_toString_int {x : Int} {c : Char} (mem : c ∈ (toString x).toList) :
    c.isDigit = true ∨ c = '-' := by
  rcases toString_int x with ⟨n, -, same⟩ | ⟨n, -, same⟩
  · rw [same] at mem
    exact .inl (isDigit_of_mem_toString mem)
  · rw [same] at mem
    rcases List.mem_append.mp mem with sign | mem
    · exact .inr (List.mem_singleton.mp sign)
    · exact .inl (isDigit_of_mem_toString mem)

theorem toList_toString_ne_nil (n : Nat) : (toString n).toList ≠ [] := by
  rw [Nat.toString_eq_ofList_toDigits, String.toList_ofList]
  exact Nat.toDigits_ne_nil

theorem toList_toString_int_ne_nil (x : Int) : (toString x).toList ≠ [] := by
  rcases toString_int x with ⟨n, -, same⟩ | ⟨n, -, same⟩
  · rw [same]
    exact toList_toString_ne_nil n
  · rw [same]
    exact List.cons_ne_nil _ _

theorem integer_append (x : Int) (ends : Undigited rest) :
    integer.run ((toString x).toList ++ rest) = some (x, rest) := by
  rcases toString_int x with ⟨n, rfl, same⟩ | ⟨n, rfl, same⟩
  · have unsigned : ¬ "-".toList <+: (toString n).toList ++ rest := by
      obtain ⟨c, digits, split⟩ := List.exists_cons_of_ne_nil (toList_toString_ne_nil n)
      have digit : c.isDigit = true :=
        isDigit_of_mem_toString (n := n) (split ▸ List.mem_cons_self)
      rw [split]
      refine not_prefix_of_head rfl rfl ?_
      rintro rfl
      exact absurd digit (by decide)
    rw [same]
    exact (run_bind (accepts_eq_false unsigned)).trans (run_bind (natural_append n ends))
  · rw [same, List.append_assoc]
    exact (run_bind (accepts_append "-" _)).trans (run_bind (natural_append n ends))

end Reader

end GrammarNet
