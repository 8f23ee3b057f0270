/-
  JsonnetLocals.Syntax.Terminal — the words of a program and how a text spells them.

  `Terminal.width` is the number of characters at the front of a text that a terminal takes, zero
  when it does not match; no terminal matches the empty text. Terminals are tried in the order of
  `Terminal.ranked`, so an earlier one wins over a longer one.
-/

import JsonnetLocals.Text.Class

namespace JsonnetLocals

/-- A terminal with a single spelling. -/
inductive Symbol where
  | kwTailstrict | kwImportstr | kwImportbin | kwFunction | kwImport | kwAssert
  | kwError | kwFalse | kwSuper | kwLocal | kwNull | kwTrue | kwSelf | kwThen | kwElse
  | kwFor | colon3 | kwIf | kwIn
  | barBar | ampAmp | eqEq | bangEq | ltEq | gtEq | ltLt | gtGt | colon2
  | amp | bang | caret | colon | comma | dollar | dot | eq | braceOpen | lt | parenOpen | bracketOpen
  | minus | gt | percent | plus | braceClose | parenClose | bracketClose | semicolon | slash | star | tilde | bar
  deriving DecidableEq, Repr

namespace Symbol

def spelling : Symbol → String
  | kwTailstrict => "tailstrict" | kwImportstr => "importstr" | kwImportbin => "importbin"
  | kwFunction => "function" | kwImport => "import" | kwAssert => "assert" | kwError => "error"
  | kwFalse => "false" | kwSuper => "super" | kwLocal => "local" | kwNull => "null" | kwTrue => "true"
  | kwSelf => "self" | kwThen => "then" | kwElse => "else" | kwFor => "for" | kwIf => "if" | kwIn => "in"
  | colon3 => ":::" | barBar => "||" | ampAmp => "&&" | eqEq => "==" | bangEq => "!=" | ltEq => "<="
  | gtEq => ">=" | ltLt => "<<" | gtGt => ">>" | colon2 => "::" | amp => "&" | bang => "!" | caret => "^"
  | colon => ":" | comma => "," | dollar => "$" | dot => "." | eq => "=" | braceOpen => "\x7b" | lt => "<"
  | parenOpen => "(" | bracketOpen => "[" | minus => "-" | gt => ">" | percent => "%" | plus => "+"
  | braceClose => "\x7d" | parenClose => ")" | bracketClose => "]" | semicolon => ";" | slash => "/"
  | star => "*" | tilde => "~" | bar => "|"

def label : Symbol → String
  | kwTailstrict => "TAILSTRICT" | kwImportstr => "IMPORTSTR" | kwImportbin => "IMPORTBIN"
  | kwFunction => "FUNCTION" | kwImport => "IMPORT" | kwAssert => "ASSERT" | kwError => "ERROR"
  | kwFalse => "FALSE" | kwSuper => "SUPER" | kwLocal => "LOCAL" | kwNull => "NULL" | kwTrue => "TRUE"
  | kwSelf => "SELF" | kwThen => "THEN" | kwElse => "ELSE" | kwFor => "FOR" | kwIf => "IF" | kwIn => "IN"
  | colon3 => "__ANON_9" | barBar => "__ANON_0" | ampAmp => "__ANON_1" | eqEq => "__ANON_2"
  | bangEq => "__ANON_3" | ltEq => "__ANON_4" | gtEq => "__ANON_5" | ltLt => "__ANON_6"
  | gtGt => "__ANON_7" | colon2 => "__ANON_8" | amp => "AMPERSAND" | bang => "BANG" | caret => "CIRCUMFLEX"
  | colon => "COLON" | comma => "COMMA" | dollar => "DOLLAR" | dot => "DOT" | eq => "EQUAL"
  | braceOpen => "LBRACE" | lt => "LESSTHAN" | parenOpen => "LPAR" | bracketOpen => "LSQB" | minus => "MINUS"
  | gt => "MORETHAN" | percent => "PERCENT" | plus => "PLUS" | braceClose => "RBRACE" | parenClose => "RPAR"
  | bracketClose => "RSQB" | semicolon => "SEMICOLON" | slash => "SLASH" | star => "STAR" | tilde => "TILDE"
  | bar => "VBAR"

/-- Every symbol, longest spelling first. -/
def ranked : List Symbol :=
  [kwTailstrict, kwImportstr, kwImportbin, kwFunction, kwImport, kwAssert, kwError, kwFalse, kwSuper, kwLocal,
    kwNull, kwTrue, kwSelf, kwThen, kwElse, kwFor, colon3, kwIf, kwIn, barBar, ampAmp, eqEq, bangEq, ltEq, gtEq,
    ltLt, gtGt, colon2, amp, bang, caret, colon, comma, dollar, dot, eq, braceOpen, lt, parenOpen, bracketOpen,
    minus, gt, percent, plus, braceClose, parenClose, bracketClose, semicolon, slash, star, tilde, bar]

end Symbol

inductive Terminal where
  | name
  | textBlock
  | number
  | stringDouble
  | stringSingle
  | blockComment
  | verbatimDouble
  | verbatimSingle
  | lineComment
  | whitespace
  | hashComment
  | symbol (s : Symbol)
  deriving DecidableEq, Repr

/-! ## Spellings -/

namespace Lexeme

export Text (isDigit isIndent isLayout)

def isNameStart (c : Char) : Bool := c == '_' || ('a' ≤ c && c ≤ 'z') || ('A' ≤ c && c ≤ 'Z')

def isNameChar (c : Char) : Bool := isNameStart c || isDigit c

/-- Words that are never names. -/
def reserved : List String :=
  ["assert", "else", "error", "false", "for", "function", "if", "importbin", "importstr", "import", "in", "local",
    "null", "tailstrict", "then", "self", "super", "true"]

/-- Whether the text starts with a reserved word that no further word character follows. -/
def startsReserved (cs : List Char) : Bool :=
  reserved.any fun w => w.toList.isPrefixOf cs && !((cs.drop w.length).head?.any Text.isWord)

def nameWidth : List Char → Nat
  | [] => 0
  | c :: rest =>
    if isNameStart c && !startsReserved (c :: rest) then 1 + (rest.takeWhile isNameChar).length else 0

def digitsWidth (cs : List Char) : Nat := (cs.takeWhile isDigit).length

def fractionWidth : List Char → Nat
  | '.' :: rest => if digitsWidth rest = 0 then 0 else 1 + digitsWidth rest
  | _ => 0

def signWidth : List Char → Nat
  | c :: _ => if c = '+' ∨ c = '-' then 1 else 0
  | [] => 0

/-- The mark of an exponent, a sign if there is one, and digits. -/
def exponentWidth : List Char → Nat
  | c :: rest =>
    let digits := digitsWidth (rest.drop (signWidth rest))
    if (c = 'e' ∨ c = 'E') ∧ digits ≠ 0 then 1 + signWidth rest + digits else 0
  | [] => 0

def numberWidth (cs : List Char) : Nat :=
  let whole := digitsWidth cs
  if whole = 0 then 0
  else
    let upToPoint := whole + fractionWidth (cs.drop whole)
    upToPoint + exponentWidth (cs.drop upToPoint)

/-- The width of a quoted string of which `n` characters are read: it ends at the first quote that
    no backslash takes. -/
def quotedRest (quote : Char) (n : Nat) : List Char → Nat
  | [] => 0
  | '\\' :: rest =>
    match rest with
    | [] => 0
    | _ :: rest => quotedRest quote (n + 2) rest
  | c :: rest => if c = quote then n + 1 else quotedRest quote (n + 1) rest

def quotedWidth (quote : Char) : List Char → Nat
  | c :: rest => if c = quote then quotedRest quote 1 rest else 0
  | [] => 0

/-- The width of a verbatim string of which `n` characters are read: it ends at the first quote
    that is not doubled. If the text ends before, `fallback` is the width up to the first quote of
    the last doubled pair. -/
def verbatimRest (quote : Char) (n fallback : Nat) : List Char → Nat
  | [] => fallback
  | c :: rest =>
    if c = quote then
      match rest with
      | d :: rest => if d = quote then verbatimRest quote (n + 2) (n + 1) rest else n + 1
      | [] => n + 1
    else verbatimRest quote (n + 1) fallback rest

def verbatimWidth (quote : Char) : List Char → Nat
  | '@' :: c :: rest => if c = quote then verbatimRest quote 2 0 rest else 0
  | _ => 0

def bars : List Char := ['|', '|', '|']

/-- A newline, an indent and three bars. -/
def blockCloseWidth : List Char → Nat
  | '\n' :: rest =>
    let indent := (rest.takeWhile isIndent).length
    if bars.isPrefixOf (rest.drop indent) then 1 + indent + 3 else 0
  | _ => 0

/-- The width of a text block of which `n` characters are read, up to the first closing line. -/
def blockRest (n : Nat) : List Char → Nat
  | [] => 0
  | c :: rest =>
    let close := blockCloseWidth (c :: rest)
    if close ≠ 0 then n + close else blockRest (n + 1) rest

def lineBreakWidth : List Char → Nat
  | '\n' :: _ => 1
  | '\r' :: '\n' :: _ => 2
  | _ => 0

/-- The rest of the line that opens a text block, after the bars. -/
def blockOpenWidth (cs : List Char) : Nat :=
  let dash := if cs.head? = some '-' then 1 else 0
  let indent := ((cs.drop dash).takeWhile isIndent).length
  let line := lineBreakWidth (cs.drop (dash + indent))
  if line = 0 then 0 else dash + indent + line

def textBlockWidth (cs : List Char) : Nat :=
  if bars.isPrefixOf cs then
    let opening := blockOpenWidth (cs.drop 3)
    if opening = 0 then 0 else blockRest (3 + opening) (cs.drop (3 + opening))
  else 0

/-- The width of a block comment of which `n` characters are read. -/
def commentRest (n : Nat) : List Char → Nat
  | '*' :: '/' :: _ => n + 2
  | _ :: rest => commentRest (n + 1) rest
  | [] => 0

def blockCommentWidth : List Char → Nat
  | '/' :: '*' :: rest => commentRest 2 rest
  | _ => 0

def lineCommentWidth : List Char → Nat
  | '/' :: '/' :: rest => 2 + (rest.takeWhile (· ≠ '\n')).length
  | _ => 0

def hashCommentWidth : List Char → Nat
  | '#' :: rest => 1 + (rest.takeWhile (· ≠ '\n')).length
  | _ => 0

def symbolWidth (s : Symbol) (cs : List Char) : Nat :=
  if s.spelling.toList.isPrefixOf cs then s.spelling.length else 0

end Lexeme

namespace Terminal

open Lexeme in
/-- How many characters at the front of the text the terminal takes. -/
def width : Terminal → List Char → Nat
  | name => nameWidth
  | textBlock => textBlockWidth
  | number => numberWidth
  | stringDouble => quotedWidth '"'
  | stringSingle => quotedWidth '\''
  | blockComment => blockCommentWidth
  | verbatimDouble => verbatimWidth '"'
  | verbatimSingle => verbatimWidth '\''
  | lineComment => lineCommentWidth
  | whitespace => fun cs => (cs.takeWhile isLayout).length
  | hashComment => hashCommentWidth
  | symbol s => symbolWidth s

def label : Terminal → String
  | name => "NAME"
  | textBlock => "TEXT_BLOCK"
  | number => "NUMBER"
  | stringDouble => "STRING_DOUBLE"
  | stringSingle => "STRING_SINGLE"
  | blockComment => "BLOCK_COMMENT"
  | verbatimDouble => "VERBATIM_DOUBLE"
  | verbatimSingle => "VERBATIM_SINGLE"
  | lineComment => "LINE_COMMENT"
  | whitespace => "WS"
  | hashComment => "HASH_COMMENT"
  | symbol s => s.label

/-- Every terminal, in the order in which they are tried. -/
def ranked : List Terminal :=
  [name, textBlock, number, stringDouble, stringSingle, blockComment, verbatimDouble, verbatimSingle, lineComment,
    whitespace, hashComment] ++ Symbol.ranked.map symbol

/-- Layout and comments: allowed everywhere and skipped. -/
def isIgnored : Terminal → Bool
  | blockComment | lineComment | whitespace | hashComment => true
  | _ => false

def isString : Terminal → Bool
  | textBlock | stringDouble | stringSingle | verbatimDouble | verbatimSingle => true
  | _ => false

/-- The first terminal that `allowed` admits and the text spells, with its width. -/
def first (allowed : Terminal → Bool) (cs : List Char) : Option (Terminal × Nat) :=
  ranked.findSome? fun t =>
    if allowed t then
      let w := t.width cs
      if w = 0 then none else some (t, w)
    else none

end Terminal

end JsonnetLocals
