/-!
# Dialects and tokens

Every source is read by the TypeScript grammar. The file name decides two things only: whether
markup elements may stand in expressions, and whether the file holds declarations alone.

The text is read as tokens: words, some of which the grammar reserves, operators of several kinds,
literals, and the pieces of templates and of markup. A word holds its text with escapes decoded;
whether it is a keyword is a question to the text.
-/

namespace Relocation.TypeScript

-- ---------------------------------------------------------------------------
-- Dialects
-- ---------------------------------------------------------------------------

/-- The variant of the grammar that a file is read with. -/
structure Dialect where
  /-- Markup elements may stand in expressions. -/
  markup : Bool
  /-- The file holds declarations only. -/
  declarationsOnly : Bool
  /-- Decorators may stand before classes and their members. -/
  decorators : Bool
  deriving Repr, DecidableEq, Inhabited

/-- Whether the name ends in the given letters. -/
def endsWith (name ending : String) : Bool := ending.toList.isSuffixOf name.toList

/-- The dialect of a file, from the end of its name in ASCII lower case. -/
def Dialect.ofFileName (fileName : String) : Dialect :=
  let name := fileName.map Char.toLower
  { markup := endsWith name ".tsx" || endsWith name ".jsx"
    declarationsOnly := [".d.ts", ".d.mts", ".d.cts"].any (endsWith name)
    decorators := true }

-- ---------------------------------------------------------------------------
-- Tokens and lexemes
-- ---------------------------------------------------------------------------

/-- A token of the grammar. -/
inductive Token where
  /-- An identifier or a keyword. -/
  | word (text : String)
  /-- A punctuator or an operator. -/
  | sym (text : String)
  /-- A string literal with its decoded value. -/
  | str (value : String)
  | number
  | bigInt
  /-- A regular expression, which only the grammar can tell from a division. -/
  | regex
  /-- A stretch of template text. `fault` is the offset of a malformed escape in it. -/
  | templateText (fault : Option Nat)
  | markupText
  | markupName (text : String)
  /-- The angle bracket that opens a tag. -/
  | tagStart
  /-- The angle bracket that closes a tag. -/
  | tagEnd
  /-- The interpreter line at the start of a file. -/
  | interpreterLine
  /-- Text that is no token. `offset` is the place that is at fault. -/
  | malformed (offset : Nat)
  deriving Repr, DecidableEq, Inhabited

/-- A token together with its place in the text. -/
structure Lexeme where
  token : Token
  /-- The offset of the first byte. -/
  start : Nat
  /-- The offset after the last byte. -/
  stop : Nat
  /-- Whether a line break stands between the lexeme and the one before it. -/
  afterLineBreak : Bool
  deriving Repr, DecidableEq, Inhabited

-- ---------------------------------------------------------------------------
-- Words
-- ---------------------------------------------------------------------------

/-- The keywords that never name anything. -/
def strictKeywords : List String :=
  ["break", "case", "catch", "continue", "debugger", "default", "do", "else", "finally", "for",
    "function", "if", "return", "switch", "throw", "try", "var", "const", "while", "with", "new",
    "this", "super", "class", "extends", "export", "import", "in", "instanceof", "typeof", "void",
    "delete", "null", "true", "false"]

/-- The keywords that some places allow as names. -/
def contextualKeywords : List String := ["let", "await", "yield"]

/-- The words that are reserved in strict code without being keywords. -/
def futureReservedWords : List String :=
  ["enum", "implements", "package", "protected", "interface", "private", "public"]

/-- Whether the word is a keyword or one of the literals that are spelled as words. -/
def isKeyword (word : String) : Bool :=
  strictKeywords.contains word || contextualKeywords.contains word

/-- Whether the word is reserved in a module, where all code is strict. -/
def isReserved (word : String) : Bool :=
  isKeyword word || futureReservedWords.contains word

/-- The keywords after which an operand follows. -/
def keywordsBeforeOperand : List String :=
  ["await", "case", "default", "do", "else", "return", "throw", "new", "extends", "yield", "in",
    "instanceof", "typeof", "void", "delete"]

-- ---------------------------------------------------------------------------
-- Operators
-- ---------------------------------------------------------------------------

/-- The binary operators that are not words. -/
def binaryOperators : List String :=
  ["==", "!=", "===", "!==", "<", "<=", ">", ">=", "<<", ">>", ">>>", "+", "-", "*", "/", "%",
    "|", "^", "&", "||", "&&", "??", "**"]

/-- The assignment operators. -/
def assignmentOperators : List String :=
  ["=", "+=", "-=", "*=", "/=", "%=", "<<=", ">>=", ">>>=", "|=", "^=", "&=", "**=", "&&=", "||=",
    "??="]

/-- The other punctuators after which an operand follows. -/
def punctuatorsBeforeOperand : List String :=
  [":", "\x7b", ";", ",", "(", "[", "=>", "...", "?", "!", "~", "$\x7b"]

namespace Token

/-- Whether the token is a binary operator that is not a word. -/
def isBinaryOperator : Token → Bool
  | sym text => binaryOperators.contains text
  | _ => false

/-- Whether an operand follows the token in general. -/
def precedesOperand : Token → Bool
  | word text => keywordsBeforeOperand.contains text
  | sym text =>
    punctuatorsBeforeOperand.contains text || binaryOperators.contains text
      || assignmentOperators.contains text
  | markupText => true
  | _ => false

/-- Whether the token is some word. -/
def isWord : Token → Bool
  | word _ => true
  | _ => false

/-- Whether the token is a word that may refer to a variable in a module. -/
def isReference : Token → Bool
  | word text => !isReserved text
  | _ => false

end Token

end Relocation.TypeScript
