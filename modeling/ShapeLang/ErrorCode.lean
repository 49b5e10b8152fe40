import ShapeLang.Fault

/-! # Error codes

Every kind of error has a code, under which it is explained at length. The first two digits of a
code tell the stage: reading tokens, reading phrases, resolving names, evaluation, shader code.
-/

namespace ShapeLang

inductive ErrorCode where
  | unrecognizedCharacter
  | syntaxError
  | unboundIdentifier
  | notAnExpression
  | notADefinition
  | invalidDefinition
  | multipleDefinition
  | recursiveDefinition
  | wrongType
  | argumentCount
  | noSuchField
  | indexOutOfRange
  | stackOverflow
  | userError
  | notAShape
  | unsupportedInShader
deriving DecidableEq, Repr

namespace ErrorCode

/-- All codes, in the order of their texts. -/
def all : List ErrorCode :=
  [unrecognizedCharacter, syntaxError, unboundIdentifier, notAnExpression, notADefinition,
    invalidDefinition, multipleDefinition, recursiveDefinition, wrongType, argumentCount,
    noSuchField, indexOutOfRange, stackOverflow, userError, notAShape, unsupportedInShader]

/-- The code of an exception. -/
def ofKind : ErrorKind → ErrorCode
  | .unboundIdentifier _ => unboundIdentifier
  | .notAnExpression => notAnExpression
  | .notADefinition => notADefinition
  | .invalidDefinition => invalidDefinition
  | .multipleDefinition _ => multipleDefinition
  | .recursiveDefinition => recursiveDefinition
  | .wrongType _ _ => wrongType
  | .argumentCount _ _ => argumentCount
  | .noSuchField _ => noSuchField
  | .indexOutOfRange _ _ => indexOutOfRange
  | .stackOverflow _ => stackOverflow
  | .userError _ => userError
  | .notAShape => notAShape
  | .unsupportedInShader _ => unsupportedInShader

/-- The code as it is written. -/
def text : ErrorCode → String
  | unrecognizedCharacter => "E0000"
  | syntaxError => "E0100"
  | unboundIdentifier => "E0200"
  | notAnExpression => "E0201"
  | notADefinition => "E0202"
  | invalidDefinition => "E0203"
  | multipleDefinition => "E0204"
  | recursiveDefinition => "E0300"
  | wrongType => "E0301"
  | argumentCount => "E0302"
  | noSuchField => "E0303"
  | indexOutOfRange => "E0304"
  | stackOverflow => "E0305"
  | userError => "E0306"
  | notAShape => "E0307"
  | unsupportedInShader => "E0400"

/-- A few words on what went wrong. -/
def title : ErrorCode → String
  | unrecognizedCharacter => "Unrecognized character"
  | syntaxError => "Syntax error"
  | unboundIdentifier => "Identifier not defined"
  | notAnExpression => "Not an expression"
  | notADefinition => "Not a definition"
  | invalidDefinition => "Invalid definition"
  | multipleDefinition => "Name defined more than once"
  | recursiveDefinition => "Recursive definition"
  | wrongType => "Wrong type"
  | argumentCount => "Wrong number of arguments"
  | noSuchField => "No such field"
  | indexOutOfRange => "Index out of range"
  | stackOverflow => "Call depth limit exceeded"
  | userError => "Error raised by program"
  | notAShape => "Not a shape"
  | unsupportedInShader => "Not supported in shader code"

/-- What the error means, and how to get rid of it. -/
def explanation : ErrorCode → String
  | unrecognizedCharacter =>
    "The lexer encountered a character that is not part of the language. This usually means a " ++
    "typo or an unsupported symbol such as `@` or `#`."
  | syntaxError =>
    "The arrangement of tokens does not match the grammar. Check for a missing `in` after `let` " ++
    "definitions, unbalanced brackets, or an `if` without `else`."
  | unboundIdentifier =>
    "The name is not bound by any enclosing `let`, module, function parameter, `for` variable, " ++
    "or builtin. Check the spelling and the scope of the definition."
  | notAnExpression =>
    "A definition such as `a = 1` was used where a value is expected. Definitions may only " ++
    "appear inside `let ... in` or inside module braces `\x7b a = 1; \x7d`."
  | notADefinition =>
    "Every item between `let` and `in`, and every item of a module literal, must have the form " ++
    "`name = expr` or `name(params) = expr`."
  | invalidDefinition =>
    "The left side of `=` must be a plain name, or a function header whose parameters are all " ++
    "plain names, such as `f(x, y)`."
  | multipleDefinition =>
    "A module, `let` block, record literal or parameter list binds the same name twice. Each " ++
    "name must be unique within one scope."
  | recursiveDefinition =>
    "A definition needs its own value before that value exists, for example `a = a + 1`. " ++
    "Recursive functions are fine; recursive data definitions are not."
  | wrongType =>
    "An operation received a value of a type it cannot handle, such as adding a boolean to a " ++
    "number or calling something that is not a function."
  | argumentCount =>
    "A function was called with a different number of arguments than it declares."
  | noSuchField => "The record or module does not define the requested field."
  | indexOutOfRange =>
    "List indices must be whole numbers between 0 and the list length minus one."
  | stackOverflow =>
    "Function calls nested deeper than the configured limit. This usually means unbounded " ++
    "recursion; the limit can be raised with `--max-depth`."
  | userError =>
    "The program called `error(message)`. The locations list the active calls, innermost first."
  | notAShape =>
    "Shader export requires the program to evaluate to a record or module with `dist` and " ++
    "`colour` fields, each a function of `(p, t)` or of a single 4-vector."
  | unsupportedInShader =>
    "Shape functions are compiled to straight-line GLSL. Loops, recursion, records, modules, " ++
    "text, and function values computed at run time cannot be compiled; conditionals are " ++
    "compiled as `?:` expressions."

/-- A text with its Latin capitals made small. -/
def folded (text : String) : List Char := text.toList.map Char.toLower

/-- The code of a text, in capital or small letters. -/
def ofText? (text : String) : Option ErrorCode :=
  all.find? fun code => folded code.text = folded text

end ErrorCode

end ShapeLang
