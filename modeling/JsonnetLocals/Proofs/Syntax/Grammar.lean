/-
  JsonnetLocals.Proofs.Syntax.Grammar — the grammar of programs.

  `Derives p ws` says that the words `ws` are a phrase of the kind and with the value that `p`
  gives; it has one constructor for each production. Expressions come in levels, loosest first:
  1 to 10 are the binary operators as `BinaryOp.level` gives them, `Level.unary` the signed operands
  and the forms that start with a keyword, `Level.postfixed` the operands with their suffixes. What
  is derived at a level is derived at every looser one (`Derives.looser`).

  The parts that names play stand in the productions: the name of a bind is a bind
  (`valueBind`, `functionBind`), the name that is an operand is a reference (`var`), and no other
  name plays a part.
-/

import JsonnetLocals.Proofs.Syntax.Words

namespace JsonnetLocals

/-- A kind of phrase with the value of one. -/
inductive Phrase where
  | expr (level : Nat) (e : Node)
  /-- An expression or nothing. -/
  | opt (e : Option Node)
  | string (e : Node)
  | bind (b : Bind Node)
  | param (p : Param Node)
  /-- Parameters in parentheses. -/
  | params (ps : List (Param Node))
  | arg (a : Argument)
  /-- An operand and arguments in parentheses. -/
  | call (e : Node)
  /-- An object or an object comprehension. -/
  | object (e : Node)
  | member (m : Node)
  /-- The name of a field that begins at `opening`. -/
  | fieldName (opening : Range) (kind : NameKind) (name : Node)
  | spec (s : Node)
  | specs (ss : List Node)
  /-- One phrase or more, divided by commas. -/
  | seq (ps : List Phrase)
  /-- Any number of phrases, divided by commas, with or without a last comma. -/
  | items (ps : List Phrase)

/-- The words are a phrase. -/
inductive Derives : Phrase → List Word → Prop
  -- operators
  | looser {l l' : Nat} {e : Node} {ts : List Word} : l ≤ l' → Derives (.expr l' e) ts → Derives (.expr l e) ts
  | binary {s : Symbol} {op : BinaryOp} {l r : Node} {ts us : List Word} {w : Word} :
      BinaryOp.ofSymbol s = some op → Derives (.expr op.level l) ts → w.Is s → Derives (.expr (op.level + 1) r) us →
      Derives (.expr op.level (.binary l op r (l.range.upTo r.range))) (ts ++ w :: us)
  | inSuper {l : Node} {ts : List Word} {w v : Word} :
      Derives (.expr Level.inSuper l) ts → w.Is .kwIn → v.Is .kwSuper →
      Derives (.expr Level.inSuper (.inSuper l (l.range.upTo v.range))) (ts ++ [w, v])
  | unary {s : Symbol} {op : UnaryOp} {e : Node} {ts : List Word} {w : Word} :
      UnaryOp.ofSymbol s = some op → w.Is s → Derives (.expr Level.unary e) ts →
      Derives (.expr Level.unary (.unary op e (w.range.upTo e.range))) (w :: ts)
  -- forms that start with a keyword
  | localIn {bs : List (Bind Node)} {e : Node} {ts us : List Word} {w v : Word} :
      w.Is .kwLocal → Derives (.seq (bs.map .bind)) ts → v.Is .semicolon → Derives (.expr 1 e) us →
      Derives (.expr Level.unary (.localIn bs e (w.range.upTo e.range))) (w :: ts ++ v :: us)
  | ifThen {c e : Node} {ts us : List Word} {w v : Word} :
      w.Is .kwIf → Derives (.expr 1 c) ts → v.Is .kwThen → Derives (.expr 1 e) us →
      Derives (.expr Level.unary (.conditional c e none (w.range.upTo e.range))) (w :: ts ++ v :: us)
  | ifThenElse {c y e : Node} {ts us vs : List Word} {w v x : Word} :
      w.Is .kwIf → Derives (.expr 1 c) ts → v.Is .kwThen → Derives (.expr 1 y) us → x.Is .kwElse →
      Derives (.expr 1 e) vs →
      Derives (.expr Level.unary (.conditional c y (some e) (w.range.upTo e.range))) (w :: ts ++ v :: us ++ x :: vs)
  | function {ps : List (Param Node)} {e : Node} {ts us : List Word} {w : Word} :
      w.Is .kwFunction → Derives (.params ps) ts → Derives (.expr 1 e) us →
      Derives (.expr Level.unary (.function ps e (w.range.upTo e.range))) (w :: ts ++ us)
  | assertion {c e : Node} {ts us : List Word} {w v : Word} :
      w.Is .kwAssert → Derives (.expr 1 c) ts → v.Is .semicolon → Derives (.expr 1 e) us →
      Derives (.expr Level.unary (.assertion c none e (w.range.upTo e.range))) (w :: ts ++ v :: us)
  | assertionMessage {c m e : Node} {ts us vs : List Word} {w v x : Word} :
      w.Is .kwAssert → Derives (.expr 1 c) ts → v.Is .colon → Derives (.expr 1 m) us → x.Is .semicolon →
      Derives (.expr 1 e) vs →
      Derives (.expr Level.unary (.assertion c (some m) e (w.range.upTo e.range))) (w :: ts ++ v :: us ++ x :: vs)
  | error {e : Node} {ts : List Word} {w : Word} :
      w.Is .kwError → Derives (.expr 1 e) ts →
      Derives (.expr Level.unary (.error e (w.range.upTo e.range))) (w :: ts)
  -- binds and parameters
  | valueBind {e : Node} {ts : List Word} {w v : Word} :
      w.IsName (some .bind) → v.Is .eq → Derives (.expr 1 e) ts →
      Derives (.bind ⟨w.spelling, e, none, w.range.upTo e.range⟩) (w :: v :: ts)
  | functionBind {ps : List (Param Node)} {e : Node} {ts us : List Word} {w v : Word} :
      w.IsName (some .bind) → Derives (.params ps) ts → v.Is .eq → Derives (.expr 1 e) us →
      Derives (.bind ⟨w.spelling, e, some (.function ps e (w.range.upTo e.range)), w.range.upTo e.range⟩)
        (w :: ts ++ v :: us)
  | params {ps : List (Param Node)} {ts : List Word} {w v : Word} :
      w.Is .parenOpen → Derives (.items (ps.map .param)) ts → v.Is .parenClose → Derives (.params ps) (w :: ts ++ [v])
  | param {w : Word} : w.IsName none → Derives (.param ⟨w.spelling, none, w.range⟩) [w]
  | paramValue {e : Node} {ts : List Word} {w v : Word} :
      w.IsName none → v.Is .eq → Derives (.expr 1 e) ts → Derives (.param ⟨w.spelling, some e, w.range⟩) (w :: v :: ts)
  -- suffixes
  | fieldAccess {e : Node} {ts : List Word} {w v : Word} :
      Derives (.expr Level.postfixed e) ts → w.Is .dot → v.IsName none →
      Derives (.expr Level.postfixed (.index e none (some v.spelling) (e.range.upTo v.range))) (ts ++ [w, v])
  | index {e i : Node} {ts us : List Word} {w v : Word} :
      Derives (.expr Level.postfixed e) ts → w.Is .bracketOpen → Derives (.expr 1 i) us → v.Is .bracketClose →
      Derives (.expr Level.postfixed (.index e (some i) none (e.range.upTo v.range))) (ts ++ w :: us ++ [v])
  | slice {e : Node} {a b : Option Node} {ts us vs : List Word} {w x v : Word} :
      Derives (.expr Level.postfixed e) ts → w.Is .bracketOpen → Derives (.opt a) us → x.Is .colon →
      Derives (.opt b) vs → v.Is .bracketClose →
      Derives (.expr Level.postfixed (.slice e a b none (e.range.upTo v.range))) (ts ++ w :: us ++ x :: vs ++ [v])
  | sliceStep {e : Node} {a b c : Option Node} {ts us vs xs : List Word} {w x y v : Word} :
      Derives (.expr Level.postfixed e) ts → w.Is .bracketOpen → Derives (.opt a) us → x.Is .colon →
      Derives (.opt b) vs → y.Is .colon → Derives (.opt c) xs → v.Is .bracketClose →
      Derives (.expr Level.postfixed (.slice e a b c (e.range.upTo v.range)))
        (ts ++ w :: us ++ x :: vs ++ y :: xs ++ [v])
  | sliceNoStop {e : Node} {a c : Option Node} {ts us xs : List Word} {w x v : Word} :
      Derives (.expr Level.postfixed e) ts → w.Is .bracketOpen → Derives (.opt a) us → x.Is .colon2 →
      Derives (.opt c) xs → v.Is .bracketClose →
      Derives (.expr Level.postfixed (.slice e a none c (e.range.upTo v.range))) (ts ++ w :: us ++ x :: xs ++ [v])
  | absent : Derives (.opt none) []
  | present {e : Node} {ts : List Word} : Derives (.expr 1 e) ts → Derives (.opt (some e)) ts
  | call {e : Node} {ps : List Node} {ns : List (NamedArg Node)} {ts us : List Word} {w v : Word} :
      Derives (.expr Level.postfixed e) ts → w.Is .parenOpen →
      Derives (.items ((ps.map Argument.positional ++ ns.map Argument.named).map Phrase.arg)) us → v.Is .parenClose →
      Derives (.call (.apply e ps ns false (e.range.upTo v.range))) (ts ++ w :: us ++ [v])
  | apply {e : Node} {ts : List Word} : Derives (.call e) ts → Derives (.expr Level.postfixed e) ts
  | tailstrict {e : Node} {ps : List Node} {ns : List (NamedArg Node)} {r : Range} {ts : List Word} {w : Word} :
      Derives (.call (.apply e ps ns false r)) ts → w.Is .kwTailstrict →
      Derives (.expr Level.postfixed (.apply e ps ns true (r.upTo w.range))) (ts ++ [w])
  | positional {e : Node} {ts : List Word} : Derives (.expr 1 e) ts → Derives (.arg (.positional e)) ts
  | named {e : Node} {ts : List Word} {w v : Word} :
      w.IsName none → v.Is .eq → Derives (.expr 1 e) ts →
      Derives (.arg (.named ⟨w.spelling, e, w.range.upTo e.range⟩)) (w :: v :: ts)
  | applyBrace {e o : Node} {ts us : List Word} :
      Derives (.expr Level.postfixed e) ts → Derives (.object o) us →
      Derives (.expr Level.postfixed (.applyBrace e o (e.range.upTo o.range))) (ts ++ us)
  -- operands
  | null {w : Word} : w.Is .kwNull → Derives (.expr Level.postfixed (.null w.range)) [w]
  | true {w : Word} : w.Is .kwTrue → Derives (.expr Level.postfixed (.bool true w.range)) [w]
  | false {w : Word} : w.Is .kwFalse → Derives (.expr Level.postfixed (.bool false w.range)) [w]
  | self {w : Word} : w.Is .kwSelf → Derives (.expr Level.postfixed (.self w.range)) [w]
  | dollar {w : Word} : w.Is .dollar → Derives (.expr Level.postfixed (.dollar w.range)) [w]
  | number {w : Word} : w.token.terminal = .number → w.role = none →
      Derives (.expr Level.postfixed (.number (Literal.numberValue w.text) w.spelling w.range)) [w]
  | var {w : Word} : w.IsName (some .reference) → Derives (.expr Level.postfixed (.var w.spelling w.range)) [w]
  | stringLiteral {k : StringKind} {value : List Char} {w : Word} :
      StringKind.ofTerminal w.token.terminal = some k → w.role = none →
      Literal.stringValue k w.text w.range.start = .ok value →
      Derives (.string (.string (.ofChars value) k w.range)) [w]
  | string {e : Node} {ts : List Word} : Derives (.string e) ts → Derives (.expr Level.postfixed e) ts
  | parens {e : Node} {ts : List Word} {w v : Word} :
      w.Is .parenOpen → Derives (.expr 1 e) ts → v.Is .parenClose →
      Derives (.expr Level.postfixed (.parens e (w.range.upTo v.range))) (w :: ts ++ [v])
  | superField {w x v : Word} : w.Is .kwSuper → x.Is .dot → v.IsName none →
      Derives (.expr Level.postfixed (.superIndex none (some v.spelling) (w.range.upTo v.range))) [w, x, v]
  | superIndex {e : Node} {ts : List Word} {w x v : Word} :
      w.Is .kwSuper → x.Is .bracketOpen → Derives (.expr 1 e) ts → v.Is .bracketClose →
      Derives (.expr Level.postfixed (.superIndex (some e) none (w.range.upTo v.range))) (w :: x :: ts ++ [v])
  | importFile {s : Symbol} {k : ImportKind} {e : Node} {ts : List Word} {w : Word} :
      ImportKind.ofSymbol s = some k → w.Is s → Derives (.string e) ts →
      Derives (.expr Level.postfixed (.importFile k e (w.range.upTo e.range))) (w :: ts)
  -- arrays
  | array {es : List Node} {ts : List Word} {w v : Word} :
      w.Is .bracketOpen → Derives (.items (es.map (.expr 1))) ts → v.Is .bracketClose →
      Derives (.expr Level.postfixed (.array es (w.range.upTo v.range))) (w :: ts ++ [v])
  | arrayComp {e : Node} {ss : List Node} {ts us : List Word} {w v : Word} :
      w.Is .bracketOpen → Derives (.items [.expr 1 e]) ts → Derives (.specs ss) us → v.Is .bracketClose →
      Derives (.expr Level.postfixed (.arrayComp e ss (w.range.upTo v.range))) (w :: ts ++ us ++ [v])
  | forSpec {e : Node} {ts : List Word} {w n v : Word} :
      w.Is .kwFor → n.IsName none → v.Is .kwIn → Derives (.expr 1 e) ts →
      Derives (.spec (.forSpec n.spelling e (w.range.upTo e.range))) (w :: n :: v :: ts)
  | ifSpec {e : Node} {ts : List Word} {w : Word} :
      w.Is .kwIf → Derives (.expr 1 e) ts → Derives (.spec (.ifSpec e (w.range.upTo e.range))) (w :: ts)
  | firstSpec {n : Text} {e : Node} {r : Range} {ts : List Word} :
      Derives (.spec (.forSpec n e r)) ts → Derives (.specs [.forSpec n e r]) ts
  | nextSpec {s : Node} {ss : List Node} {ts us : List Word} :
      Derives (.specs ss) ts → Derives (.spec s) us → Derives (.specs (ss ++ [s])) (ts ++ us)
  -- objects
  | objectExpr {e : Node} {ts : List Word} : Derives (.object e) ts → Derives (.expr Level.postfixed e) ts
  | object {ms : List Node} {ts : List Word} {w v : Word} :
      w.Is .braceOpen → Derives (.items (ms.map .member)) ts → v.Is .braceClose →
      Derives (.object (.object ms (w.range.upTo v.range))) (w :: ts ++ [v])
  | objectComp {ms ss : List Node} {f : Node} {ts us : List Word} {w v : Word} :
      w.Is .braceOpen → Derives (.items (ms.map .member)) ts → Derives (.specs ss) us → v.Is .braceClose →
      (∀ m ∈ ms, isObjectAssert m = false) → ms.filter isField = [f] → isComputedField f = true →
      Derives (.object (.objectComp ms ss (w.range.upTo v.range))) (w :: ts ++ us ++ [v])
  | objectLocal {b : Bind Node} {ts : List Word} {w : Word} :
      w.Is .kwLocal → Derives (.bind b) ts → Derives (.member (.objectLocal b (w.range.upTo b.range))) (w :: ts)
  | objectAssert {e : Node} {ts : List Word} {w : Word} :
      w.Is .kwAssert → Derives (.expr 1 e) ts →
      Derives (.member (.objectAssert e none (w.range.upTo e.range))) (w :: ts)
  | objectAssertMessage {e m : Node} {ts us : List Word} {w v : Word} :
      w.Is .kwAssert → Derives (.expr 1 e) ts → v.Is .colon → Derives (.expr 1 m) us →
      Derives (.member (.objectAssert e (some m) (w.range.upTo m.range))) (w :: ts ++ v :: us)
  | field {k : NameKind} {n e : Node} {r : Range} {s : Symbol} {vis : Visibility} {ts us : List Word} {v : Word} :
      Derives (.fieldName r k n) ts → Visibility.ofSymbol s = some vis → v.Is s → Derives (.expr 1 e) us →
      Derives (.member (.field k n e vis false none (r.upTo e.range))) (ts ++ v :: us)
  | fieldPlus {k : NameKind} {n e : Node} {r : Range} {s : Symbol} {vis : Visibility} {ts us : List Word} {x v : Word} :
      Derives (.fieldName r k n) ts → x.Is .plus → Visibility.ofSymbol s = some vis → v.Is s → Derives (.expr 1 e) us →
      Derives (.member (.field k n e vis true none (r.upTo e.range))) (ts ++ x :: v :: us)
  | method {k : NameKind} {n e : Node} {r : Range} {s : Symbol} {vis : Visibility} {ps : List (Param Node)}
      {ts us vs : List Word} {v : Word} :
      Derives (.fieldName r k n) ts → Derives (.params ps) us → Visibility.ofSymbol s = some vis → v.Is s →
      Derives (.expr 1 e) vs →
      Derives (.member (.field k n e vis false (some (.function ps e (r.upTo e.range))) (r.upTo e.range)))
        (ts ++ us ++ v :: vs)
  | idName {w : Word} : w.IsName none → Derives (.fieldName w.range .id (.string w.spelling .double w.range)) [w]
  | stringName {e : Node} {ts : List Word} : Derives (.string e) ts → Derives (.fieldName e.range .string e) ts
  | computedName {e : Node} {ts : List Word} {w v : Word} :
      w.Is .bracketOpen → Derives (.expr 1 e) ts → v.Is .bracketClose →
      Derives (.fieldName w.range .computed e) (w :: ts ++ [v])
  -- lists
  | one {p : Phrase} {ts : List Word} : Derives p ts → Derives (.seq [p]) ts
  | more {p : Phrase} {ps : List Phrase} {ts us : List Word} {w : Word} :
      Derives (.seq ps) ts → w.Is .comma → Derives p us → Derives (.seq (ps ++ [p])) (ts ++ w :: us)
  | noItems : Derives (.items []) []
  | items {ps : List Phrase} {ts : List Word} : Derives (.seq ps) ts → Derives (.items ps) ts
  | itemsComma {ps : List Phrase} {ts : List Word} {w : Word} :
      Derives (.seq ps) ts → w.Is .comma → Derives (.items ps) (ts ++ [w])

/-- The same phrase, its words written in another way. -/
theorem Derives.cast {p : Phrase} {ts us : List Word} (h : Derives p ts) (e : ts = us) : Derives p us := e ▸ h

end JsonnetLocals
