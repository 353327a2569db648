/-!
Symbols and the reserved ones among them.

A symbol is an integer: a token type of a parser or a code point of a lexer. Token types start at
`Symbol.firstUser`; the reserved symbols below stand for the end of the input, for the end of a
rule that was reached without consuming input, and for a predicate that was not looked through.
-/

namespace GrammarNet

namespace Symbol

/-- The end of the input. -/
def endOfInput : Int := -1

/-- No input: the end of the rule was reached. -/
def epsilon : Int := -2

/-- No symbol; in a lookahead set, the mark that a predicate was met. -/
def invalid : Int := 0

/-- The smallest token type. -/
def firstUser : Int := 1

end Symbol

end GrammarNet
