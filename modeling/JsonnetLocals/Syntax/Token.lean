/-
  JsonnetLocals.Syntax.Token — tokens, and which terminals a place admits.

  A text is cut into tokens while it is read: each place of a program admits a set of terminals,
  its context, and only these (with layout and comments) are looked for. So `a inb` is `a in b`,
  because no name can follow `a`.
-/

import JsonnetLocals.Source.Position
import JsonnetLocals.Syntax.Terminal

namespace JsonnetLocals

structure Token where
  terminal : Terminal
  text : List Char
  range : Range
  deriving DecidableEq

namespace Token

def spelling (t : Token) : Text := .ofChars t.text

def isSymbol (t : Token) (s : Symbol) : Bool := t.terminal == .symbol s

end Token

/-- A place of a program, as far as it decides which terminals can stand there. -/
inductive Context where
  | operand
  /-- An operand or a closing bracket. -/
  | operandOrClose
  /-- After a whole operand. -/
  | afterOperand
  | afterString
  /-- After the closing parenthesis of a call. -/
  | afterArguments
  | afterInSuper
  | afterSuper
  | importPath
  | name
  | argument
  | afterArgumentName
  | subscript
  | sliceStop
  | nextElement
  | member
  | nextMember
  | afterFieldName
  | visibility
  | afterBindName
  | paramsOpen
  | param
  | afterParamName
  | afterParams
  | forIn
  deriving DecidableEq, Repr

namespace Context

def operandSymbols : List Symbol :=
  [.bang, .dollar, .parenOpen, .plus, .minus, .bracketOpen, .kwAssert, .kwError, .kwFalse, .kwFunction, .kwIf,
    .kwImport, .kwImportbin, .kwImportstr, .kwLocal, .kwNull, .kwSelf, .kwSuper, .kwTrue, .braceOpen, .tilde]

/-- The symbols that can follow `e in super`: operators, what closes or divides, and the two ways
    to go on from `super`. -/
def followSymbols : List Symbol :=
  [.bangEq, .percent, .amp, .ampAmp, .parenClose, .star, .plus, .comma, .minus, .dot, .slash, .colon, .colon2,
    .semicolon, .lt, .ltLt, .ltEq, .eqEq, .gt, .gtEq, .gtGt, .bracketOpen, .bracketClose, .caret, .kwElse, .kwFor,
    .kwIf, .kwIn, .kwThen, .bar, .barBar, .braceClose]

def argumentNameSymbols : List Symbol :=
  [.bangEq, .percent, .amp, .ampAmp, .parenOpen, .parenClose, .star, .plus, .comma, .minus, .dot, .slash, .lt, .ltLt,
    .ltEq, .eq, .eqEq, .gt, .gtEq, .gtGt, .bracketOpen, .caret, .kwIn, .braceOpen, .bar, .barBar]

def symbols : Context → List Symbol
  | operand => operandSymbols
  | operandOrClose => .bracketClose :: operandSymbols
  | afterOperand => .parenOpen :: .braceOpen :: followSymbols
  | afterString => .colon3 :: .parenOpen :: .braceOpen :: followSymbols
  | afterArguments => .kwTailstrict :: .parenOpen :: .braceOpen :: followSymbols
  | afterInSuper => followSymbols
  | afterSuper => [.dot, .bracketOpen]
  | importPath => []
  | name => []
  | argument => .parenClose :: operandSymbols
  | afterArgumentName => argumentNameSymbols
  | subscript => .colon :: .colon2 :: operandSymbols
  | sliceStop => .colon :: .bracketClose :: operandSymbols
  | nextElement => .bracketClose :: .kwFor :: operandSymbols
  | member => [.bracketOpen, .kwAssert, .kwLocal, .braceClose]
  | nextMember => [.bracketOpen, .kwAssert, .kwLocal, .braceClose, .kwFor]
  | afterFieldName => [.parenOpen, .plus, .colon, .colon2, .colon3]
  | visibility => [.colon, .colon2, .colon3]
  | afterBindName => [.parenOpen, .eq]
  | paramsOpen => [.parenOpen]
  | param => [.parenClose]
  | afterParamName => [.parenClose, .comma, .eq]
  | afterParams => .colon :: .colon2 :: .colon3 :: .eq :: operandSymbols
  | forIn => [.kwIn]

def startsOperand : Context → Bool
  | operand | operandOrClose | argument | subscript | sliceStop | nextElement | afterParams => true
  | _ => false

def admitsName : Context → Bool
  | name | member | nextMember | param => true
  | c => c.startsOperand

def admitsString : Context → Bool
  | importPath | member | nextMember => true
  | c => c.startsOperand

/-- Whether the terminal is looked for at this place. -/
def admits (c : Context) (t : Terminal) : Bool :=
  t.isIgnored ||
    match t with
    | .name => c.admitsName
    | .number => c.startsOperand
    | .symbol s => c.symbols.contains s
    | t => t.isString && c.admitsString

end Context

end JsonnetLocals
