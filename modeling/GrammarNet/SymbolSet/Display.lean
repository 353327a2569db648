import GrammarNet.SymbolSet.Basic

/-!
The text of a set of symbols.

A set is written between braces with its parts separated by commas: a symbol by its name or
number, an interval either as its two ends or symbol by symbol. Intervals that start below zero,
and all intervals when there is a vocabulary, are written symbol by symbol, because their symbols
may have names.
-/

namespace GrammarNet

/-- The names of the symbols from zero on; an empty name counts as none. -/
abbrev Vocabulary := List String

namespace Vocabulary

/-- The name of a symbol, if the vocabulary has one. -/
def name? (names : Vocabulary) (x : Int) : Option String :=
  if x < 0 then none
  else names[x.toNat]?.filter fun name => !name.isEmpty

/-- A symbol by its reserved name, its name in the vocabulary, or its number. -/
def text (names : Vocabulary) (x : Int) : String :=
  if x = Symbol.endOfInput then "<EOF>"
  else if x = Symbol.epsilon then "<EPSILON>"
  else (names.name? x).getD (toString x)

end Vocabulary

namespace Interval

/-- The parts that an interval contributes to the text of a set. -/
def texts (names : Vocabulary) (r : Interval) : List String :=
  if r.lo = r.hi ∨ r.lo < 0 ∨ names ≠ [] then r.toList.map names.text
  else [names.text r.lo ++ ".." ++ names.text r.hi]

end Interval

namespace SymbolSet

/-- The text of a set, with the names of a vocabulary. -/
def text (s : SymbolSet) (names : Vocabulary) : String :=
  "\x7b" ++ String.intercalate ", " (s.intervals.flatMap (Interval.texts names)) ++ "\x7d"

end SymbolSet

end GrammarNet
