import Relocation.TypeScript.Grammar.Reading

/-!
# Phrases

The phrases of the grammar that may hold one another, and what is remembered of them. The grammar
builds no tree. Of an item of a module it remembers the path that it names, if it names one: the
items that do so by a literal are told apart by their form, and every other item is alike. Of an
expression it remembers where it starts, and what decides how the text may go on: whether it can be
assigned to, whether it can be read as a pattern instead, whether it ends at an arrow function, and
whether it is a plain call of `require`.

A reader of a phrase is given the readers of all phrases (`Nested`) and calls those where the text
nests; only in the end is the knot tied. So each part of the grammar can be written by itself.
-/

namespace Relocation.TypeScript

-- ---------------------------------------------------------------------------
-- Items of a module
-- ---------------------------------------------------------------------------

/-- A string literal in the text. -/
structure Literal where
  /-- The offset of the opening quote. -/
  start : Nat
  /-- The offset after the closing quote. -/
  stop : Nat
  /-- The decoded value. -/
  value : String
  deriving Repr, DecidableEq, Inhabited

/-- An item at the top level of a module. -/
inductive Item where
  /-- An import that binds no name. -/
  | bareImport (path : Literal)
  /-- An import that binds names. -/
  | bindingImport (path : Literal)
  /-- A name that is set equal to a required module. -/
  | aliasImport (path : Literal)
  /-- A statement that calls `require` with a path alone. `start` is where the statement starts. -/
  | requireCall (start : Nat) (path : Literal)
  /-- Anything else. -/
  | other
  deriving Repr, DecidableEq, Inhabited

namespace Grammar

-- ---------------------------------------------------------------------------
-- Expressions
-- ---------------------------------------------------------------------------

/-- The kinds of expression that the grammar tells apart. -/
inductive Shape where
  | name (text : String)
  /-- A string literal. -/
  | string (literal : Literal)
  /-- A call of `require` with one string literal and nothing else. -/
  | requireCall (path : Literal)
  | arrow
  /-- An operation, on whose value nothing can be assigned. -/
  | operation
  /-- Something that has a place to assign to. -/
  | place
  /-- An access that may be cut short. -/
  | chain
  /-- A construction without arguments. -/
  | bareConstruction
  /-- An object or an array. If it is read as a pattern of assignment or of binding, the offsets
  tell the first fault. -/
  | structured (assignmentFault bindingFault : Option Nat)
  | assignment
  | parenthesized
  /-- What stands in for a faulty operand. -/
  | invalid
  | other
  deriving Repr, DecidableEq, Inhabited

/-- What is remembered of an expression. -/
structure Expression where
  /-- Where it starts. -/
  start : Nat
  shape : Shape
  deriving Repr, DecidableEq, Inhabited

namespace Expression

/-- Whether the expression is an arrow function. -/
def isArrow (e : Expression) : Bool := e.shape == .arrow

/-- Whether the expression is an access that may be cut short. -/
def isChain (e : Expression) : Bool := e.shape == .chain

/-- Whether the expression is the given name. -/
def isName (e : Expression) (text : String) : Bool := e.shape == .name text

/-- Where the expression fails as the pattern of an assignment. -/
def assignmentFault (e : Expression) : Option Nat :=
  match e.shape with
  | .structured assignment _ => assignment
  | _ => none

/-- Where the expression fails as the pattern of a binding. -/
def bindingFault (e : Expression) : Option Nat :=
  match e.shape with
  | .structured _ binding => binding
  | _ => none

/-- Whether the expression has a place to assign to. -/
def isPlace (e : Expression) : Bool :=
  match e.shape with
  | .name _ | .place | .chain | .parenthesized | .invalid => true
  | _ => false

/-- Whether the expression can stand before an equality sign. -/
def isTarget (e : Expression) : Bool :=
  match e.shape with
  | .structured _ _ => true
  | _ => e.isPlace

end Expression

/-- An argument of a call or an element of an array. -/
structure Element where
  /-- Whether it is spread. -/
  spread : Bool
  value : Expression
  deriving Repr, DecidableEq, Inhabited

/-- An item between parentheses that may turn out to be the head of an arrow function. -/
inductive ParenItem where
  | element (element : Element)
  /-- An item that can only be a parameter. -/
  | parameter (start : Nat)
  deriving Repr, DecidableEq, Inhabited

namespace ParenItem

/-- Where the item fails as a parameter. -/
def parameterFault : ParenItem → Option Nat
  | element e => e.value.bindingFault
  | parameter _ => none

end ParenItem

/-- What is called, or what a member is taken of. -/
inductive Callee where
  | expression (value : Expression)
  | superclass (start : Nat)
  | module_ (start : Nat)
  deriving Repr, DecidableEq, Inhabited

/-- Where the callee starts. -/
def Callee.start : Callee → Nat
  | expression value => value.start
  | superclass start | module_ start => start

/-- The forms of a binding. -/
inductive Binding where
  | name
  | array
  | object
  | withDefault
  | rest
  deriving Repr, DecidableEq, Inhabited

-- ---------------------------------------------------------------------------
-- Phrases
-- ---------------------------------------------------------------------------

/-- The phrases that may hold one another. -/
inductive Phrase where
  /-- An expression without a comma. -/
  | assignment
  /-- An operand with the operators before it. -/
  | unary
  /-- The operators behind an operand that bind more tightly than the given strength. -/
  | operators (left : Expression) (strength : Nat)
  /-- An operand without operators and calls. -/
  | operand
  /-- What follows an operand: members, indices and, if allowed, calls. -/
  | trailers (callee : Callee) (calls indices : Bool)
  /-- An object literal. -/
  | object
  /-- A markup element, from its tag on. -/
  | element
  | type_
  /-- A type without operators between types. -/
  | typeOperand
  | typeArguments
  | typeParameters
  /-- A name or a pattern of names. -/
  | binding
  /-- The parameters of a function, without the parentheses. -/
  | parameters
  | decorators
  /-- Statements in braces. -/
  | block
  /-- A statement, which may be a declaration or not. -/
  | statement (declarations : Bool)
  /-- Module items in braces. -/
  | moduleBlock
  /-- A class, which must have a name or not. -/
  | class_ (named : Bool)
  deriving Repr, DecidableEq

/-- What is remembered of a phrase. -/
@[reducible] def Phrase.Value : Phrase → Type
  | assignment | unary | operators _ _ | operand | trailers _ _ _ | object | element => Expression
  | binding => Binding
  | parameters => List Binding
  | statement _ => Item
  | _ => Unit

/-- The readers of all phrases. -/
abbrev Nested := ∀ phrase : Phrase, Parse phrase.Value

end Grammar

end Relocation.TypeScript
