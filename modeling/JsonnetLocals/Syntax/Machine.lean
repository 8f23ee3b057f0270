/-
  JsonnetLocals.Syntax.Machine — reading a program, one token at a time.

  The state is a stack of constructs that wait for an expression and a focus that says what is
  expected next. A token either moves the focus or, after a whole operand, first closes the
  constructs on the stack that it ends:
  - a binary operator closes the operators that bind at least as tightly, and every construct in
    front of which the expression cannot stand as its left operand;
  - any other token closes constructs until one of them waits for it.
  A body (of `local`, `if`, `function`, `assert`, `error`) is closed only when nothing inside can
  take the token, so it extends as far to the right as it can.

  Faults of finished constructs are kept beside the stack, the first one only: they count when the
  whole text has been read.
-/

import JsonnetLocals.Syntax.Literal
import JsonnetLocals.Syntax.Token

namespace JsonnetLocals

/-! ## Binding strength -/

namespace BinaryOp

/-- How tightly the operator binds. -/
def level : BinaryOp → Nat
  | or => 1
  | and => 2
  | bitOr => 3
  | bitXor => 4
  | bitAnd => 5
  | eq | ne => 6
  | lt | le | gt | ge | isIn => 7
  | shiftLeft | shiftRight => 8
  | add | sub => 9
  | mul | div | mod => 10

/-- The operator that a symbol stands for between two operands. -/
def ofSymbol : Symbol → Option BinaryOp
  | .barBar => some or
  | .ampAmp => some and
  | .bar => some bitOr
  | .caret => some bitXor
  | .amp => some bitAnd
  | .eqEq => some eq
  | .bangEq => some ne
  | .lt => some lt
  | .ltEq => some le
  | .gt => some gt
  | .gtEq => some ge
  | .kwIn => some isIn
  | .ltLt => some shiftLeft
  | .gtGt => some shiftRight
  | .plus => some add
  | .minus => some sub
  | .star => some mul
  | .slash => some div
  | .percent => some mod
  | _ => none

end BinaryOp

namespace UnaryOp

/-- The operator that a symbol stands for in front of an operand. -/
def ofSymbol : Symbol → Option UnaryOp
  | .minus => some neg
  | .plus => some pos
  | .bang => some not
  | .tilde => some complement
  | _ => none

end UnaryOp

namespace Level

/-- The level of `e in super`. -/
def inSuper : Nat := 7

/-- The level of a signed operand, and of a form that starts with a keyword. -/
def unary : Nat := 11

/-- The level of an operand with its suffixes. -/
def postfixed : Nat := 12

end Level

def StringKind.ofTerminal : Terminal → Option StringKind
  | .stringDouble => some .double
  | .stringSingle => some .single
  | .verbatimDouble => some .verbatimDouble
  | .verbatimSingle => some .verbatimSingle
  | .textBlock => some .block
  | _ => none

def Visibility.ofSymbol : Symbol → Option Visibility
  | .colon => some .inherited
  | .colon2 => some .hidden
  | .colon3 => some .visible
  | _ => none

def ImportKind.ofSymbol : Symbol → Option ImportKind
  | .kwImport => some .code
  | .kwImportstr => some .text
  | .kwImportbin => some .binary
  | _ => none

/-! ## Constructs in progress -/

/-- Lists of parts in progress hold the last part first. -/
structure ArrayHead where
  opening : Range
  elements : List Node

/-- An object in progress; `base` is the expression that it extends. -/
structure ObjectHead where
  base : Option Node
  opening : Range
  members : List Node

inductive CompHead where
  | array (head : ArrayHead)
  | object (head : ObjectHead)

/-- Where a bind stands: in a `local` expression with the binds before it, or in an object. -/
inductive BindPlace where
  | inExpr (opening : Range) (binds : List (Bind Node))
  | inObject (object : ObjectHead) (opening : Range)

structure FieldHead where
  object : ObjectHead
  opening : Range
  kind : NameKind
  name : Node

inductive ParamOwner where
  | function (opening : Range)
  | bind (place : BindPlace) (name : Token)
  | method (field : FieldHead)

inductive Argument where
  | positional (value : Node)
  | named (arg : NamedArg Node)

/-- A construct that waits for an expression. -/
inductive Frame where
  | unary (op : UnaryOp) (opening : Range)
  | binary (left : Node) (op : BinaryOp)
  | localBody (opening : Range) (binds : List (Bind Node))
  | thenBranch (opening : Range) (cond : Node)
  | elseBranch (opening : Range) (cond yes : Node)
  | functionBody (opening : Range) (params : List (Param Node))
  | assertRest (opening : Range) (cond : Node) (message : Option Node)
  | errorBody (opening : Range)
  | parens (opening : Range)
  | ifCond (opening : Range)
  | assertCond (opening : Range)
  | assertMessage (opening : Range) (cond : Node)
  | bindValue (place : BindPlace) (name : Token) (params : Option (List (Param Node)))
  | paramValue (owner : ParamOwner) (params : List (Param Node)) (name : Token)
  | index (target : Node)
  | sliceStop (target : Node) (start : Option Node)
  | sliceStep (target : Node) (start stop : Option Node)
  | superIndex (opening : Range)
  | argument (target : Node) (args : List Argument) (name : Option Token)
  | element (head : ArrayHead)
  | computedName (object : ObjectHead) (opening : Range)
  | fieldBody (field : FieldHead) (params : Option (List (Param Node))) (plus : Bool) (visibility : Visibility)
  | objectAssertCond (object : ObjectHead) (opening : Range)
  | objectAssertMessage (object : ObjectHead) (opening : Range) (cond : Node)
  | forSource (head : CompHead) (specs : List Node) (opening : Range) (name : Token)
  | ifSpec (head : CompHead) (specs : List Node) (opening : Range)

/-- What is expected next. -/
inductive Focus where
  /-- An operand for the construct on top of the stack. -/
  | operand
  /-- Nothing more: an operand with its suffixes is read. -/
  | whole (e : Node) (next : Context)
  /-- After `super` that follows `in`, whose left operand is on the stack. -/
  | inSuper (opening : Range)
  | afterSuper (opening : Range)
  | superField (opening : Range)
  | importPath (kind : ImportKind) (opening : Range)
  | fieldAccess (target : Node)
  | subscript (target : Node)
  | sliceStop (target : Node) (start : Option Node)
  | sliceStep (target : Node) (start stop : Option Node)
  | argument (target : Node) (args : List Argument)
  | argumentName (target : Node) (args : List Argument) (name : Token)
  | element (head : ArrayHead)
  | nextElement (head : ArrayHead)
  | member (object : ObjectHead)
  | nextMember (object : ObjectHead)
  | afterFieldName (field : FieldHead) (next : Context)
  | plusVisibility (field : FieldHead)
  | bindName (place : BindPlace)
  | afterBindName (place : BindPlace) (name : Token)
  | paramsOpen (opening : Range)
  | param (owner : ParamOwner) (params : List (Param Node))
  | afterParamName (owner : ParamOwner) (params : List (Param Node)) (name : Token)
  | afterParams (owner : ParamOwner) (params : List (Param Node))
  | forName (head : CompHead) (specs : List Node) (opening : Range)
  | forIn (head : CompHead) (specs : List Node) (opening : Range) (name : Token)

def Focus.context : Focus → Context
  | operand => .operand
  | whole _ next => next
  | inSuper _ => .afterInSuper
  | afterSuper _ => .afterSuper
  | superField _ | fieldAccess _ | bindName _ | forName _ _ _ => .name
  | importPath _ _ => .importPath
  | subscript _ => .subscript
  | sliceStop _ _ => .sliceStop
  | sliceStep _ _ _ => .operandOrClose
  | argument _ _ => .argument
  | argumentName _ _ _ => .afterArgumentName
  | element _ => .operandOrClose
  | nextElement _ => .nextElement
  | member _ => .member
  | nextMember _ => .nextMember
  | afterFieldName _ next => next
  | plusVisibility _ => .visibility
  | afterBindName _ _ => .afterBindName
  | paramsOpen _ => .paramsOpen
  | param _ _ => .param
  | afterParamName _ _ _ => .afterParamName
  | afterParams _ _ => .afterParams
  | forIn _ _ _ _ => .forIn

/-- What a token does to the top of the stack: the constructs to push, the next focus, and the
    fault of a construct that it finished. -/
structure Move where
  push : List Frame
  focus : Focus
  fault : Option ParseError

namespace Move

def goTo (focus : Focus) : Move := ⟨[], focus, none⟩

/-- An operand is expected for `frame`. -/
def await (frame : Frame) : Move := ⟨[frame], .operand, none⟩

def done (e : Node) : Move := ⟨[], .whole e .afterOperand, none⟩

end Move

/-! ## Finishing constructs -/

def paramOf (name : Token) (value : Option Node) : Param Node := ⟨name.spelling, value, name.range⟩

def bindOf (name : Token) (params : Option (List (Param Node))) (e : Node) : Bind Node :=
  let range := name.range.upTo e.range
  ⟨name.spelling, e, params.map fun ps => .function ps.reverse e range, range⟩

/-- The positional and the named arguments of a call; the second value tells whether a positional
    one follows a named one. -/
def sortArguments : List Argument → (List Node × List (NamedArg Node)) × Bool
  | [] => (([], []), false)
  | .positional e :: rest =>
    let r := sortArguments rest
    ((e :: r.1.1, r.1.2), r.2)
  | .named a :: rest =>
    let r := sortArguments rest
    ((r.1.1, a :: r.1.2), r.2 || !r.1.1.isEmpty)

def finishCall (target : Node) (args : List Argument) (close : Range) : Move :=
  let r := sortArguments args.reverse
  ⟨[], .whole (.apply target r.1.1 r.1.2 false (target.range.upTo close)) .afterArguments,
    if r.2 then some (.positionalAfterNamed target.range.start) else none⟩

def argumentOf (name : Option Token) (e : Node) : Argument :=
  match name with
  | none => .positional e
  | some t => .named ⟨t.spelling, e, t.range.upTo e.range⟩

def finishArray (head : ArrayHead) (close : Range) : Move :=
  .done (.array head.elements.reverse (head.opening.upTo close))

/-- An object that is finished, alone or as the extension of its base. -/
def extendBase (head : ObjectHead) (close : Range) (object : Node) : Node :=
  match head.base with
  | none => object
  | some base => .applyBrace base object (base.range.upTo close)

def finishObject (head : ObjectHead) (close : Range) : Move :=
  .done (extendBase head close (.object head.members.reverse (head.opening.upTo close)))

def isField : Node → Bool
  | .field _ _ _ _ _ _ _ => true
  | _ => false

def isObjectAssert : Node → Bool
  | .objectAssert _ _ _ => true
  | _ => false

def isComputedField : Node → Bool
  | .field .computed _ _ _ _ _ _ => true
  | _ => false

/-- What is wrong with the members of an object comprehension: it has no asserts and a single
    field, whose name is computed. -/
def membersFault (members : List Node) (place : Position) : Option ParseError :=
  if members.any isObjectAssert then some (.comprehensionAsserts place)
  else
    match members.filter isField with
    | [f] => if isComputedField f then none else some (.comprehensionName place)
    | _ => some (.comprehensionFields place)

/-- What is wrong with the elements of an array comprehension: it has one. -/
def elementsFault (elements : List Node) (place : Position) : Option ParseError :=
  if elements.length = 1 then none else some (.comprehensionElements place)

def finishComp (head : CompHead) (specs : List Node) (close : Range) : Move :=
  match head with
  | .array h =>
    let range := h.opening.upTo close
    ⟨[], .whole (.arrayComp (h.elements.headD (.null range)) specs.reverse range) .afterOperand,
      elementsFault h.elements h.opening.start⟩
  | .object h =>
    let range := h.opening.upTo close
    ⟨[], .whole (extendBase h close (.objectComp h.members.reverse specs.reverse range)) .afterOperand,
      membersFault h.members.reverse h.opening.start⟩

def afterMember (object : ObjectHead) (m : Node) (t : Token) : Option Move :=
  let object := { object with members := m :: object.members }
  match t.terminal with
  | .symbol .comma => some (.goTo (.nextMember object))
  | .symbol .braceClose => some (finishObject object t.range)
  | .symbol .kwFor => some (.goTo (.forName (.object object) [] t.range))
  | _ => none

def afterSpec (head : CompHead) (specs : List Node) (t : Token) : Option Move :=
  match t.terminal, head with
  | .symbol .kwFor, _ => some (.goTo (.forName head specs t.range))
  | .symbol .kwIf, _ => some (.await (.ifSpec head specs t.range))
  | .symbol .bracketClose, .array _ => some (finishComp head specs t.range)
  | .symbol .braceClose, .object _ => some (finishComp head specs t.range)
  | _, _ => none

def fieldOf (field : FieldHead) (params : Option (List (Param Node))) (plus : Bool) (visibility : Visibility)
    (e : Node) : Node :=
  let range := field.opening.upTo e.range
  .field field.kind field.name e visibility plus (params.map fun ps => .function ps.reverse e range) range

namespace Frame

/-- The expression that the construct makes of its last part, with its level, if it can end there. -/
def close (e : Node) : Frame → Option (Node × Nat)
  | unary op opening => some (.unary op e (opening.upTo e.range), Level.unary)
  | binary left op => some (.binary left op e (left.range.upTo e.range), op.level)
  | localBody opening binds => some (.localIn binds.reverse e (opening.upTo e.range), Level.unary)
  | thenBranch opening cond => some (.conditional cond e none (opening.upTo e.range), Level.unary)
  | elseBranch opening cond yes => some (.conditional cond yes (some e) (opening.upTo e.range), Level.unary)
  | functionBody opening params => some (.function params.reverse e (opening.upTo e.range), Level.unary)
  | assertRest opening cond message => some (.assertion cond message e (opening.upTo e.range), Level.unary)
  | errorBody opening => some (.error e (opening.upTo e.range), Level.unary)
  | _ => none

/-- Whether the construct must be closed before an operator of `level` takes its operand. -/
def bindsAtLeast (level : Nat) : Frame → Bool
  | unary _ _ => true
  | binary _ op => level ≤ op.level
  | _ => false

/-- The move of a construct that waits for the token after its expression `e`. -/
def resume (e : Node) (t : Token) : Frame → Option Move
  | parens opening =>
    if t.isSymbol .parenClose then some (.done (.parens e (opening.upTo t.range))) else none
  | ifCond opening => if t.isSymbol .kwThen then some (.await (.thenBranch opening e)) else none
  | thenBranch opening cond => if t.isSymbol .kwElse then some (.await (.elseBranch opening cond e)) else none
  | assertCond opening =>
    if t.isSymbol .semicolon then some (.await (.assertRest opening e none))
    else if t.isSymbol .colon then some (.await (.assertMessage opening e))
    else none
  | assertMessage opening cond =>
    if t.isSymbol .semicolon then some (.await (.assertRest opening cond (some e))) else none
  | bindValue (.inExpr opening binds) name params =>
    let binds := bindOf name params e :: binds
    if t.isSymbol .comma then some (.goTo (.bindName (.inExpr opening binds)))
    else if t.isSymbol .semicolon then some (.await (.localBody opening binds))
    else none
  | bindValue (.inObject object opening) name params =>
    afterMember object (.objectLocal (bindOf name params e) (opening.upTo e.range)) t
  | paramValue owner params name =>
    let params := paramOf name (some e) :: params
    if t.isSymbol .comma then some (.goTo (.param owner params))
    else if t.isSymbol .parenClose then some (.goTo (.afterParams owner params))
    else none
  | index target =>
    if t.isSymbol .bracketClose then some (.done (.index target (some e) none (target.range.upTo t.range)))
    else if t.isSymbol .colon then some (.goTo (.sliceStop target (some e)))
    else if t.isSymbol .colon2 then some (.goTo (.sliceStep target (some e) none))
    else none
  | sliceStop target start =>
    if t.isSymbol .bracketClose then some (.done (.slice target start (some e) none (target.range.upTo t.range)))
    else if t.isSymbol .colon then some (.goTo (.sliceStep target start (some e)))
    else none
  | sliceStep target start stop =>
    if t.isSymbol .bracketClose then some (.done (.slice target start stop (some e) (target.range.upTo t.range)))
    else none
  | superIndex opening =>
    if t.isSymbol .bracketClose then some (.done (.superIndex (some e) none (opening.upTo t.range))) else none
  | argument target args name =>
    let args := argumentOf name e :: args
    if t.isSymbol .comma then some (.goTo (.argument target args))
    else if t.isSymbol .parenClose then some (finishCall target args t.range)
    else none
  | element head =>
    let head := { head with elements := e :: head.elements }
    if t.isSymbol .comma then some (.goTo (.nextElement head))
    else if t.isSymbol .bracketClose then some (finishArray head t.range)
    else if t.isSymbol .kwFor then some (.goTo (.forName (.array head) [] t.range))
    else none
  | computedName object opening =>
    if t.isSymbol .bracketClose then some (.goTo (.afterFieldName ⟨object, opening, .computed, e⟩ .afterFieldName))
    else none
  | fieldBody field params plus visibility => afterMember field.object (fieldOf field params plus visibility e) t
  | objectAssertCond object opening =>
    if t.isSymbol .colon then some (.await (.objectAssertMessage object opening e))
    else afterMember object (.objectAssert e none (opening.upTo e.range)) t
  | objectAssertMessage object opening cond =>
    afterMember object (.objectAssert cond (some e) (opening.upTo e.range)) t
  | forSource head specs opening name =>
    afterSpec head (.forSpec name.spelling e (opening.upTo e.range) :: specs) t
  | ifSpec head specs opening => afterSpec head (.ifSpec e (opening.upTo e.range) :: specs) t
  | _ => none

end Frame

/-! ## Steps -/

structure State where
  stack : List Frame
  focus : Focus
  fault : Option ParseError

namespace State

def start : State := ⟨[], .operand, none⟩

/-- Performs a move on top of `stack`, after the fault `fault`. -/
def perform (stack : List Frame) (fault : Option ParseError) (m : Move) : State :=
  ⟨m.push ++ stack, m.focus, fault.or m.fault⟩

/-- The binary operator `op` after an expression of some level: closes what binds at least as
    tightly, then takes the expression as its left operand. -/
def takeOperator (op : BinaryOp) : List Frame → Node → Nat → Option (List Frame)
  | [], e, level => if op.level ≤ level then some [.binary e op] else none
  | f :: rest, e, level =>
    if op.level ≤ level && !f.bindsAtLeast op.level then some (.binary e op :: f :: rest)
    else
      match f.close e with
      | some (e, level) => takeOperator op rest e level
      | none => none

/-- A token that is no operator, after an expression: closes constructs until one waits for it. -/
def takeDivider (t : Token) : List Frame → Node → Option (List Frame × Move)
  | [], _ => none
  | f :: rest, e =>
    match f.resume e t with
    | some m => some (rest, m)
    | none =>
      match f.close e with
      | some (e, _) => takeDivider t rest e
      | none => none

/-- A token after the expression `e` of level `level`. -/
def settle (stack : List Frame) (fault : Option ParseError) (e : Node) (level : Nat) (t : Token) : Option State :=
  let op := match t.terminal with
    | .symbol s => BinaryOp.ofSymbol s
    | _ => none
  match op with
  | some op => (takeOperator op stack e level).map fun stack => ⟨stack, .operand, fault⟩
  | none => (takeDivider t stack e).map fun r => perform r.1 fault r.2

def makeTailstrict (e : Node) (t : Token) : Option Node :=
  match e with
  | .apply target args named _ range => some (.apply target args named true (range.upTo t.range))
  | _ => none

def afterWhole (stack : List Frame) (fault : Option ParseError) (e : Node) (t : Token) : Option State :=
  match t.terminal with
  | .symbol .dot => some ⟨stack, .fieldAccess e, fault⟩
  | .symbol .bracketOpen => some ⟨stack, .subscript e, fault⟩
  | .symbol .parenOpen => some ⟨stack, .argument e [], fault⟩
  | .symbol .braceOpen => some ⟨stack, .member ⟨some e, t.range, []⟩, fault⟩
  | .symbol .kwTailstrict => (makeTailstrict e t).map fun e => ⟨stack, .whole e .afterOperand, fault⟩
  | _ => settle stack fault e Level.postfixed t

def stringMove (kind : StringKind) (t : Token) (finish : Node → Focus) : Move :=
  match Literal.stringValue kind t.text t.range.start with
  | .ok value => .goTo (finish (.string (.ofChars value) kind t.range))
  | .error fault => ⟨[], finish (.string "" kind t.range), some fault⟩

def operandSymbol (s : Symbol) (range : Range) : Option Move :=
  match UnaryOp.ofSymbol s with
  | some op => some (.await (.unary op range))
  | none =>
    match ImportKind.ofSymbol s with
    | some kind => some (.goTo (.importPath kind range))
    | none =>
      match s with
      | .kwNull => some (.done (.null range))
      | .kwTrue => some (.done (.bool true range))
      | .kwFalse => some (.done (.bool false range))
      | .kwSelf => some (.done (.self range))
      | .dollar => some (.done (.dollar range))
      | .kwLocal => some (.goTo (.bindName (.inExpr range [])))
      | .kwIf => some (.await (.ifCond range))
      | .kwFunction => some (.goTo (.paramsOpen range))
      | .kwAssert => some (.await (.assertCond range))
      | .kwError => some (.await (.errorBody range))
      | .kwSuper => some (.goTo (.afterSuper range))
      | .parenOpen => some (.await (.parens range))
      | .bracketOpen => some (.goTo (.element ⟨range, []⟩))
      | .braceOpen => some (.goTo (.member ⟨none, range, []⟩))
      | _ => none

def operandMove (t : Token) : Option Move :=
  match t.terminal with
  | .name => some (.done (.var t.spelling t.range))
  | .number => some (.done (.number (Literal.numberValue t.text) t.spelling t.range))
  | .symbol s => operandSymbol s t.range
  | terminal => (StringKind.ofTerminal terminal).map fun kind => stringMove kind t fun e => .whole e .afterString

def startOperand (stack : List Frame) (fault : Option ParseError) (t : Token) : Option State :=
  (operandMove t).map (perform stack fault)

/-- Whether the operand expected next is the right one of `in`. -/
def afterIn : List Frame → Bool
  | .binary _ .isIn :: _ => true
  | _ => false

def memberMove (object : ObjectHead) (t : Token) : Option Move :=
  match t.terminal with
  | .name =>
    let name := Node.string t.spelling .double t.range
    some (.goTo (.afterFieldName ⟨object, t.range, .id, name⟩ .afterFieldName))
  | .symbol .bracketOpen => some (.await (.computedName object t.range))
  | .symbol .kwAssert => some (.await (.objectAssertCond object t.range))
  | .symbol .kwLocal => some (.goTo (.bindName (.inObject object t.range)))
  | .symbol .braceClose => some (finishObject object t.range)
  | .symbol _ => none
  | terminal =>
    (StringKind.ofTerminal terminal).map fun kind =>
      stringMove kind t fun e => .afterFieldName ⟨object, t.range, .string, e⟩ .afterString

def visibilityOf (t : Token) : Option Visibility :=
  match t.terminal with
  | .symbol s => Visibility.ofSymbol s
  | _ => none

def afterParams (stack : List Frame) (fault : Option ParseError) (owner : ParamOwner) (params : List (Param Node))
    (t : Token) : Option State :=
  match owner with
  | .function opening => startOperand (.functionBody opening params :: stack) fault t
  | .bind place name =>
    if t.isSymbol .eq then some (perform stack fault (.await (.bindValue place name (some params)))) else none
  | .method field =>
    (visibilityOf t).map fun v => perform stack fault (.await (.fieldBody field (some params) false v))

/-- The state after a token, or none when the token cannot stand there. -/
def feed (s : State) (t : Token) : Option State :=
  let stack := s.stack
  let fault := s.fault
  let move := perform stack fault
  match s.focus with
  | .operand =>
    if t.isSymbol .kwSuper && afterIn stack then some ⟨stack, .inSuper t.range, fault⟩
    else startOperand stack fault t
  | .whole e _ => afterWhole stack fault e t
  | .inSuper opening =>
    if t.isSymbol .dot then some (move (.goTo (.superField opening)))
    else if t.isSymbol .bracketOpen then some (move (.await (.superIndex opening)))
    else
      match stack with
      | .binary left .isIn :: rest => settle rest fault (.inSuper left (left.range.upTo opening)) Level.inSuper t
      | _ => none
  | .afterSuper opening =>
    if t.isSymbol .dot then some (move (.goTo (.superField opening)))
    else if t.isSymbol .bracketOpen then some (move (.await (.superIndex opening)))
    else none
  | .superField opening =>
    if t.terminal = .name then some (move (.done (.superIndex none (some t.spelling) (opening.upTo t.range)))) else none
  | .importPath kind opening =>
    (StringKind.ofTerminal t.terminal).map fun k =>
      move (stringMove k t fun e => .whole (.importFile kind e (opening.upTo t.range)) .afterString)
  | .fieldAccess target =>
    if t.terminal = .name then some (move (.done (.index target none (some t.spelling) (target.range.upTo t.range))))
    else none
  | .subscript target =>
    if t.isSymbol .colon then some (move (.goTo (.sliceStop target none)))
    else if t.isSymbol .colon2 then some (move (.goTo (.sliceStep target none none)))
    else startOperand (.index target :: stack) fault t
  | .sliceStop target start =>
    if t.isSymbol .bracketClose then some (move (.done (.slice target start none none (target.range.upTo t.range))))
    else if t.isSymbol .colon then some (move (.goTo (.sliceStep target start none)))
    else startOperand (.sliceStop target start :: stack) fault t
  | .sliceStep target start stop =>
    if t.isSymbol .bracketClose then some (move (.done (.slice target start stop none (target.range.upTo t.range))))
    else startOperand (.sliceStep target start stop :: stack) fault t
  | .argument target args =>
    if t.isSymbol .parenClose then some (move (finishCall target args t.range))
    else if t.terminal = .name then some (move (.goTo (.argumentName target args t)))
    else startOperand (.argument target args none :: stack) fault t
  | .argumentName target args name =>
    if t.isSymbol .eq then some (move (.await (.argument target args (some name))))
    else afterWhole (.argument target args none :: stack) fault (.var name.spelling name.range) t
  | .element head =>
    if t.isSymbol .bracketClose then some (move (finishArray head t.range))
    else startOperand (.element head :: stack) fault t
  | .nextElement head =>
    if t.isSymbol .bracketClose then some (move (finishArray head t.range))
    else if t.isSymbol .kwFor then some (move (.goTo (.forName (.array head) [] t.range)))
    else startOperand (.element head :: stack) fault t
  | .member object => (memberMove object t).map move
  | .nextMember object =>
    if t.isSymbol .kwFor then some (move (.goTo (.forName (.object object) [] t.range)))
    else (memberMove object t).map move
  | .afterFieldName field _ =>
    if t.isSymbol .parenOpen then some (move (.goTo (.param (.method field) [])))
    else if t.isSymbol .plus then some (move (.goTo (.plusVisibility field)))
    else (visibilityOf t).map fun v => move (.await (.fieldBody field none false v))
  | .plusVisibility field => (visibilityOf t).map fun v => move (.await (.fieldBody field none true v))
  | .bindName place => if t.terminal = .name then some (move (.goTo (.afterBindName place t))) else none
  | .afterBindName place name =>
    if t.isSymbol .eq then some (move (.await (.bindValue place name none)))
    else if t.isSymbol .parenOpen then some (move (.goTo (.param (.bind place name) [])))
    else none
  | .paramsOpen opening =>
    if t.isSymbol .parenOpen then some (move (.goTo (.param (.function opening) []))) else none
  | .param owner params =>
    if t.isSymbol .parenClose then some (move (.goTo (.afterParams owner params)))
    else if t.terminal = .name then some (move (.goTo (.afterParamName owner params t)))
    else none
  | .afterParamName owner params name =>
    if t.isSymbol .eq then some (move (.await (.paramValue owner params name)))
    else if t.isSymbol .comma then some (move (.goTo (.param owner (paramOf name none :: params))))
    else if t.isSymbol .parenClose then some (move (.goTo (.afterParams owner (paramOf name none :: params))))
    else none
  | .afterParams owner params => afterParams stack fault owner params t
  | .forName head specs opening =>
    if t.terminal = .name then some (move (.goTo (.forIn head specs opening t))) else none
  | .forIn head specs opening name =>
    if t.isSymbol .kwIn then some (move (.await (.forSource head specs opening name))) else none

/-- Closes every construct at the end of the text. -/
def closeAll : List Frame → Node → Option Node
  | [], e => some e
  | f :: rest, e =>
    match f.close e with
    | some (e, _) => closeAll rest e
    | none => none

/-- The program that is read when the text ends here. -/
def finish (s : State) : Option Node :=
  match s.focus with
  | .whole e _ => closeAll s.stack e
  | .inSuper opening =>
    match s.stack with
    | .binary left .isIn :: rest => closeAll rest (.inSuper left (left.range.upTo opening))
    | _ => none
  | _ => none

end State

end JsonnetLocals
