/-
  JsonnetLocals.Syntax.Tree — syntax trees of Jsonnet programs.

  Every construct carries its range in the source. A function bind `f(x) = e` and a method
  `f(x): e` hold the body twice, by itself and inside the function; `Node.children` goes through
  the function only, so that walking a tree meets every part once (`Node.walk_eq`).
-/

import JsonnetLocals.Number.Double
import JsonnetLocals.Source.Position

namespace JsonnetLocals

/-! ## Words of the language -/

inductive StringKind where
  | double
  | single
  | verbatimDouble
  | verbatimSingle
  | block
  deriving DecidableEq, Repr

inductive ImportKind where
  | code
  | text
  | binary
  deriving DecidableEq, Repr

inductive NameKind where
  | id
  | string
  | computed
  deriving DecidableEq, Repr

inductive Visibility where
  | inherited
  | hidden
  | visible
  deriving DecidableEq, Repr

inductive UnaryOp where
  | neg
  | pos
  | not
  | complement
  deriving DecidableEq, Repr

inductive BinaryOp where
  | or | and | bitOr | bitXor | bitAnd
  | eq | ne | lt | le | gt | ge | isIn
  | shiftLeft | shiftRight
  | add | sub | mul | div | mod
  deriving DecidableEq, Repr

/-! ## Trees -/

structure Param (ν : Type) where
  name : Text
  value : Option ν
  range : Range

/-- The bind `name = body`, or `name(…) = body` with its function. The range begins at the
    bound name and covers the whole bind. -/
structure Bind (ν : Type) where
  name : Text
  body : ν
  function : Option ν
  range : Range

structure NamedArg (ν : Type) where
  name : Text
  value : ν
  range : Range

inductive Node where
  | null (range : Range)
  | bool (value : Bool) (range : Range)
  | number (value : Double) (spelling : Text) (range : Range)
  | string (value : Text) (kind : StringKind) (range : Range)
  | self (range : Range)
  | dollar (range : Range)
  | var (name : Text) (range : Range)
  | function (params : List (Param Node)) (body : Node) (range : Range)
  | localIn (binds : List (Bind Node)) (body : Node) (range : Range)
  | binary (left : Node) (op : BinaryOp) (right : Node) (range : Range)
  | unary (op : UnaryOp) (operand : Node) (range : Range)
  | conditional (cond yes : Node) (no : Option Node) (range : Range)
  | assertion (cond : Node) (message : Option Node) (rest : Node) (range : Range)
  | error (message : Node) (range : Range)
  | parens (inner : Node) (range : Range)
  | importFile (kind : ImportKind) (file : Node) (range : Range)
  | apply (target : Node) (args : List Node) (named : List (NamedArg Node)) (tailstrict : Bool) (range : Range)
  | applyBrace (left right : Node) (range : Range)
  | index (target : Node) (position : Option Node) (field : Option Text) (range : Range)
  | slice (target : Node) (start stop step : Option Node) (range : Range)
  | superIndex (position : Option Node) (field : Option Text) (range : Range)
  | inSuper (key : Node) (range : Range)
  | field (nameKind : NameKind) (name body : Node) (visibility : Visibility) (plus : Bool) (method : Option Node)
      (range : Range)
  | objectLocal (bind : Bind Node) (range : Range)
  | objectAssert (cond : Node) (message : Option Node) (range : Range)
  | object (members : List Node) (range : Range)
  | forSpec (name : Text) (source : Node) (range : Range)
  | ifSpec (cond : Node) (range : Range)
  | objectComp (members specs : List Node) (range : Range)
  | array (elements : List Node) (range : Range)
  | arrayComp (body : Node) (specs : List Node) (range : Range)
  deriving Inhabited

/-- The part of a bind to walk: its function, which holds the body, or else the body. -/
def Bind.child {ν : Type} (b : Bind ν) : ν := b.function.getD b.body

namespace Node

def range : Node → Range
  | null r | bool _ r | number _ _ r | string _ _ r | self r | dollar r | var _ r => r
  | function _ _ r | localIn _ _ r | binary _ _ _ r | unary _ _ r | conditional _ _ _ r => r
  | assertion _ _ _ r | error _ r | parens _ r | importFile _ _ r | apply _ _ _ _ r => r
  | applyBrace _ _ r | index _ _ _ r | slice _ _ _ _ r | superIndex _ _ r | inSuper _ r => r
  | field _ _ _ _ _ _ r | objectLocal _ r | objectAssert _ _ r | object _ r | forSpec _ _ r => r
  | ifSpec _ r | objectComp _ _ r | array _ r | arrayComp _ _ r => r

/-- The direct parts of a construct. The specs of a comprehension come before what they range over. -/
def children : Node → List Node
  | null _ | bool _ _ | number _ _ _ | string _ _ _ | self _ | dollar _ | var _ _ => []
  | function params body _ => params.filterMap (·.value) ++ [body]
  | localIn binds body _ => binds.map (·.child) ++ [body]
  | binary left _ right _ => [left, right]
  | unary _ operand _ => [operand]
  | conditional cond yes no _ => cond :: yes :: no.toList
  | assertion cond message rest _ => cond :: message.toList ++ [rest]
  | error message _ => [message]
  | parens inner _ => [inner]
  | importFile _ file _ => [file]
  | apply target args named _ _ => target :: args ++ named.map (·.value)
  | applyBrace left right _ => [left, right]
  | index target position _ _ => target :: position.toList
  | slice target start stop step _ => target :: start.toList ++ stop.toList ++ step.toList
  | superIndex position _ _ => position.toList
  | inSuper key _ => [key]
  | field _ name body _ _ method _ => [name, method.getD body]
  | objectLocal bind _ => [bind.child]
  | objectAssert cond message _ => cond :: message.toList
  | object members _ => members
  | forSpec _ source _ => [source]
  | ifSpec cond _ => [cond]
  | objectComp members specs _ => specs ++ members
  | array elements _ => elements
  | arrayComp body specs _ => specs ++ [body]

def binds : Node → List (Bind Node)
  | localIn binds _ _ => binds
  | objectLocal bind _ => [bind]
  | _ => []

def label : Node → String
  | null _ => "NullLiteral"
  | bool _ _ => "BooleanLiteral"
  | number _ _ _ => "NumberLiteral"
  | string _ _ _ => "StringLiteral"
  | self _ => "Self"
  | dollar _ => "Dollar"
  | var _ _ => "Var"
  | function _ _ _ => "Function"
  | localIn _ _ _ => "Local"
  | binary _ _ _ _ => "Binary"
  | unary _ _ _ => "Unary"
  | conditional _ _ _ _ => "Conditional"
  | assertion _ _ _ _ => "Assert"
  | error _ _ => "Error"
  | parens _ _ => "Parens"
  | importFile _ _ _ => "Import"
  | apply _ _ _ _ _ => "Apply"
  | applyBrace _ _ _ => "ApplyBrace"
  | index _ _ _ _ => "Index"
  | slice _ _ _ _ _ => "Slice"
  | superIndex _ _ _ => "SuperIndex"
  | inSuper _ _ => "InSuper"
  | field _ _ _ _ _ _ _ => "ObjectField"
  | objectLocal _ _ => "ObjectLocal"
  | objectAssert _ _ _ => "ObjectAssert"
  | object _ _ => "Object"
  | forSpec _ _ _ => "ForSpec"
  | ifSpec _ _ => "IfSpec"
  | objectComp _ _ _ => "ObjectComprehension"
  | array _ _ => "Array"
  | arrayComp _ _ _ => "ArrayComprehension"

/-! ## Walking a tree -/

theorem sizeOf_child_lt (b : Bind Node) : sizeOf b.child < sizeOf b := by
  rcases b with ⟨v, body, _ | f, r⟩ <;> simp [Bind.child] <;> omega

theorem sizeOf_value_lt (a : NamedArg Node) : sizeOf a.value < sizeOf a := by
  rcases a with ⟨v, x, r⟩; simp only [NamedArg.mk.sizeOf_spec]; omega

theorem sizeOf_default_lt {p : Param Node} {c : Node} (h : p.value = some c) : sizeOf c < sizeOf p := by
  rcases p with ⟨v, _ | x, r⟩ <;> simp at h
  subst h
  simp only [Param.mk.sizeOf_spec, Option.some.sizeOf_spec]; omega

theorem sizeOf_lt_of_mem_toList {c : Node} {o : Option Node} (h : c ∈ o.toList) : sizeOf c < sizeOf o := by
  rcases o with _ | x
  · simp at h
  · simp only [Option.toList, List.mem_singleton] at h
    subst h
    simp

theorem sizeOf_getD_lt (o : Option Node) (d : Node) : sizeOf (o.getD d) < sizeOf o + sizeOf d := by
  rcases o with _ | x
  · simp only [Option.getD_none, Option.none.sizeOf_spec]; omega
  · simp only [Option.getD_some, Option.some.sizeOf_spec]
    omega

/-- A part of a construct is smaller than the construct. -/
theorem sizeOf_lt_of_mem_children {n c : Node} (h : c ∈ n.children) : sizeOf c < sizeOf n := by
  cases n <;> simp only [children, List.mem_append, List.mem_cons, List.mem_filterMap, List.mem_map,
    List.not_mem_nil, or_false] at h
  case function params body r =>
    rcases h with ⟨p, hp, hc⟩ | rfl
    · have := List.sizeOf_lt_of_mem hp; have := sizeOf_default_lt hc; simp; omega
    · simp; omega
  case localIn binds body r =>
    rcases h with ⟨b, hb, rfl⟩ | rfl
    · have := List.sizeOf_lt_of_mem hb; have := sizeOf_child_lt b; simp; omega
    · simp; omega
  case apply target args named t r =>
    rcases h with (rfl | h) | ⟨a, ha, rfl⟩
    · simp; omega
    · have := List.sizeOf_lt_of_mem h; simp; omega
    · have := List.sizeOf_lt_of_mem ha; have := sizeOf_value_lt a; simp; omega
  case conditional cond yes no r =>
    rcases h with rfl | rfl | h
    · simp; omega
    · simp; omega
    · have := sizeOf_lt_of_mem_toList h; simp; omega
  case assertion cond message rest r =>
    rcases h with (rfl | h) | rfl
    · simp; omega
    · have := sizeOf_lt_of_mem_toList h; simp; omega
    · simp; omega
  case index target position f r =>
    rcases h with rfl | h
    · simp; omega
    · have := sizeOf_lt_of_mem_toList h; simp; omega
  case slice target a b c r =>
    rcases h with ((rfl | h) | h) | h
    · simp; omega
    all_goals have := sizeOf_lt_of_mem_toList h; simp; omega
  case superIndex position f r => have := sizeOf_lt_of_mem_toList h; simp; omega
  case field k name body v p method r =>
    rcases h with rfl | rfl
    · simp; omega
    · have := sizeOf_getD_lt method body; simp; omega
  case objectLocal bind r => subst h; have := sizeOf_child_lt bind; simp; omega
  case objectAssert cond message r =>
    rcases h with rfl | h
    · simp; omega
    · have := sizeOf_lt_of_mem_toList h; simp; omega
  case object members r => have := List.sizeOf_lt_of_mem h; simp; omega
  case array elements r => have := List.sizeOf_lt_of_mem h; simp; omega
  case objectComp members specs r =>
    rcases h with h | h
    all_goals have := List.sizeOf_lt_of_mem h; simp; omega
  case arrayComp body specs r =>
    rcases h with h | rfl
    · have := List.sizeOf_lt_of_mem h; simp; omega
    · simp; omega
  case binary => rcases h with rfl | rfl <;> simp <;> omega
  case applyBrace => rcases h with rfl | rfl <;> simp <;> omega
  all_goals first | exact h.elim | (subst h; simp; omega)

/-- The construct and all its parts, each before its own parts. -/
def walk (n : Node) : List Node :=
  n :: n.children.attach.flatMap fun ⟨c, _⟩ => c.walk
termination_by sizeOf n
decreasing_by exact sizeOf_lt_of_mem_children (by assumption)

theorem walk_eq (n : Node) : n.walk = n :: n.children.flatMap walk := by
  rw [walk]
  congr 1
  simp [List.flatMap_subtype, List.unattach_attach]

/-- Induction over a tree, from the parts of each construct to the construct. -/
theorem ind {P : Node → Prop} (h : ∀ n, (∀ c ∈ n.children, P c) → P n) (n : Node) : P n :=
  h n fun c _ => ind h c
termination_by sizeOf n
decreasing_by exact sizeOf_lt_of_mem_children (by assumption)

end Node

end JsonnetLocals
