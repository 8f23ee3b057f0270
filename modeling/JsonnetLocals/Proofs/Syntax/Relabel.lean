/-
  JsonnetLocals.Proofs.Syntax.Relabel — trees and states of the machine under other names.

  Relabelling a tree changes the names of binds and variables, and those of parameters and of `for`,
  and forgets all places; walks go along with it (`Node.walk_relabel`), and relabelling twice is
  relabelling once (`Node.relabel_relabel`). Renaming the constructs in progress changes binds and
  variables only. What closes a construct looks at neither names nor places, so it gives the renamed
  construct (`Frame.close_rename`, `Frame.resume_rename`), up to the place that a fault names.

  One name is open for one step: a name that begins an argument is a variable unless `=` follows,
  so renaming a focus takes the answer as a parameter.
-/

import JsonnetLocals.Proofs.Syntax.Words
import Mathlib.Data.List.Basic

namespace JsonnetLocals

/-! ## Trees -/

mutual

/-- The tree with other names of binds and variables and of binders of values, without places. -/
def Node.relabel (name binder : Text → Text) : Node → Node
  | .null _ => .null .unset
  | .bool b _ => .bool b .unset
  | .number v s _ => .number v s .unset
  | .string v k _ => .string v k .unset
  | .self _ => .self .unset
  | .dollar _ => .dollar .unset
  | .var n _ => .var (name n) .unset
  | .function ps e _ => .function (Node.relabelParams name binder ps) (e.relabel name binder) .unset
  | .localIn bs e _ => .localIn (Node.relabelBinds name binder bs) (e.relabel name binder) .unset
  | .binary a op b _ => .binary (a.relabel name binder) op (b.relabel name binder) .unset
  | .unary op e _ => .unary op (e.relabel name binder) .unset
  | .conditional c y n _ =>
    .conditional (c.relabel name binder) (y.relabel name binder) (Node.relabelOption name binder n) .unset
  | .assertion c g e _ =>
    .assertion (c.relabel name binder) (Node.relabelOption name binder g) (e.relabel name binder) .unset
  | .error e _ => .error (e.relabel name binder) .unset
  | .parens e _ => .parens (e.relabel name binder) .unset
  | .importFile k e _ => .importFile k (e.relabel name binder) .unset
  | .apply t ps ns s _ =>
    .apply (t.relabel name binder) (Node.relabelAll name binder ps) (Node.relabelNamed name binder ns) s .unset
  | .applyBrace a b _ => .applyBrace (a.relabel name binder) (b.relabel name binder) .unset
  | .index t p f _ => .index (t.relabel name binder) (Node.relabelOption name binder p) f .unset
  | .slice t a b c _ =>
    .slice (t.relabel name binder) (Node.relabelOption name binder a) (Node.relabelOption name binder b)
      (Node.relabelOption name binder c) .unset
  | .superIndex p f _ => .superIndex (Node.relabelOption name binder p) f .unset
  | .inSuper e _ => .inSuper (e.relabel name binder) .unset
  | .field k n e v p f _ =>
    .field k (n.relabel name binder) (e.relabel name binder) v p (Node.relabelOption name binder f) .unset
  | .objectLocal ⟨n, e, f, _⟩ _ =>
    .objectLocal ⟨name n, e.relabel name binder, Node.relabelOption name binder f, .unset⟩ .unset
  | .objectAssert c g _ => .objectAssert (c.relabel name binder) (Node.relabelOption name binder g) .unset
  | .object ms _ => .object (Node.relabelAll name binder ms) .unset
  | .forSpec n e _ => .forSpec (binder n) (e.relabel name binder) .unset
  | .ifSpec e _ => .ifSpec (e.relabel name binder) .unset
  | .objectComp ms ss _ => .objectComp (Node.relabelAll name binder ms) (Node.relabelAll name binder ss) .unset
  | .array es _ => .array (Node.relabelAll name binder es) .unset
  | .arrayComp e ss _ => .arrayComp (e.relabel name binder) (Node.relabelAll name binder ss) .unset

def Node.relabelOption (name binder : Text → Text) : Option Node → Option Node
  | none => none
  | some e => some (e.relabel name binder)

def Node.relabelAll (name binder : Text → Text) : List Node → List Node
  | [] => []
  | e :: es => e.relabel name binder :: Node.relabelAll name binder es

def Node.relabelParams (name binder : Text → Text) : List (Param Node) → List (Param Node)
  | [] => []
  | ⟨n, v, _⟩ :: ps => ⟨binder n, Node.relabelOption name binder v, .unset⟩ :: Node.relabelParams name binder ps

def Node.relabelBinds (name binder : Text → Text) : List (Bind Node) → List (Bind Node)
  | [] => []
  | ⟨n, e, f, _⟩ :: bs =>
    ⟨name n, e.relabel name binder, Node.relabelOption name binder f, .unset⟩ :: Node.relabelBinds name binder bs

def Node.relabelNamed (name binder : Text → Text) : List (NamedArg Node) → List (NamedArg Node)
  | [] => []
  | ⟨n, e, _⟩ :: ns => ⟨n, e.relabel name binder, .unset⟩ :: Node.relabelNamed name binder ns

end

section Tree

variable (name binder : Text → Text)

def Param.relabel (p : Param Node) : Param Node := ⟨binder p.name, p.value.map (Node.relabel name binder), .unset⟩

def Bind.relabel (b : Bind Node) : Bind Node :=
  ⟨name b.name, b.body.relabel name binder, b.function.map (Node.relabel name binder), .unset⟩

def NamedArg.relabel (a : NamedArg Node) : NamedArg Node := ⟨a.name, a.value.relabel name binder, .unset⟩

@[simp] theorem Node.relabelOption_eq (o : Option Node) : relabelOption name binder o = o.map (relabel name binder) := by
  cases o <;> rfl

@[simp] theorem Node.relabelAll_eq (es : List Node) : relabelAll name binder es = es.map (relabel name binder) := by
  induction es with
  | nil => rfl
  | cons e es ih => rw [relabelAll, ih, List.map_cons]

@[simp] theorem Node.relabelParams_eq (ps : List (Param Node)) :
    relabelParams name binder ps = ps.map (Param.relabel name binder) := by
  induction ps with
  | nil => rfl
  | cons p ps ih => rw [relabelParams, ih, List.map_cons, relabelOption_eq]; rfl

@[simp] theorem Node.relabelBinds_eq (bs : List (Bind Node)) :
    relabelBinds name binder bs = bs.map (Bind.relabel name binder) := by
  induction bs with
  | nil => rfl
  | cons b bs ih => rw [relabelBinds, ih, List.map_cons, relabelOption_eq]; rfl

@[simp] theorem Node.relabelNamed_eq (ns : List (NamedArg Node)) :
    relabelNamed name binder ns = ns.map (NamedArg.relabel name binder) := by
  induction ns with
  | nil => rfl
  | cons n ns ih => rw [relabelNamed, ih, List.map_cons]; rfl

@[simp] theorem Node.range_relabel (e : Node) : (e.relabel name binder).range = .unset := by
  cases e <;> rfl

theorem Bind.child_relabel (b : Bind Node) : (b.relabel name binder).child = b.child.relabel name binder := by
  unfold Bind.child Bind.relabel
  cases b.function <;> rfl

theorem filterMap_value_relabel (ps : List (Param Node)) :
    ps.filterMap (fun p => (p.relabel name binder).value) = (ps.filterMap (·.value)).map (Node.relabel name binder) := by
  rw [List.map_filterMap]
  rfl

theorem Node.children_relabel (e : Node) : (e.relabel name binder).children = e.children.map (relabel name binder) := by
  cases e with
  | function ps e => simp [relabel, children, filterMap_value_relabel]
  | localIn bs e => simp [relabel, children, Function.comp_def, Bind.child_relabel]
  | conditional c y n => cases n <;> simp [relabel, children]
  | assertion c g e => cases g <;> simp [relabel, children]
  | apply t ps ns => simp [relabel, children, NamedArg.relabel, Function.comp_def]
  | index t p => cases p <;> simp [relabel, children]
  | slice t a b c => cases a <;> cases b <;> cases c <;> simp [relabel, children]
  | superIndex p => cases p <;> simp [relabel, children]
  | field k n e v p f => cases f <;> simp [relabel, children]
  | objectLocal b =>
    obtain ⟨n, e, f, r⟩ := b
    cases f <;> simp [relabel, children, Bind.child]
  | objectAssert c g => cases g <;> simp [relabel, children]
  | _ => simp [relabel, children]

/-- Walking a tree under other names meets the same constructs under other names. -/
theorem Node.walk_relabel (e : Node) : (e.relabel name binder).walk = e.walk.map (relabel name binder) := by
  induction e using Node.ind with
  | _ e ih =>
    rw [walk_eq, walk_eq, children_relabel, List.map_cons, List.map_flatMap, List.flatMap_map]
    congr 1
    exact List.flatMap_congr ih

end Tree

section Twice

variable (f g f' g' : Text → Text)

mutual

theorem Node.relabel_relabel : ∀ e : Node, (e.relabel f g).relabel f' g' = e.relabel (f' ∘ f) (g' ∘ g)
  | .null _ | .bool _ _ | .number _ _ _ | .string _ _ _ | .self _ | .dollar _ | .var _ _ => rfl
  | .unary _ e _ | .error e _ | .parens e _ | .importFile _ e _ | .inSuper e _ | .forSpec _ e _ | .ifSpec e _ => by
    simp only [Node.relabel, Node.relabel_relabel e, Function.comp_apply]
  | .binary a _ b _ | .applyBrace a b _ => by simp only [Node.relabel, Node.relabel_relabel a, Node.relabel_relabel b]
  | .function ps e _ => by simp only [Node.relabel, Node.relabelParams_relabelParams ps, Node.relabel_relabel e]
  | .localIn bs e _ => by simp only [Node.relabel, Node.relabelBinds_relabelBinds bs, Node.relabel_relabel e]
  | .conditional c y n _ => by
    simp only [Node.relabel, Node.relabel_relabel c, Node.relabel_relabel y, Node.relabelOption_relabelOption n]
  | .assertion c m e _ => by
    simp only [Node.relabel, Node.relabel_relabel c, Node.relabelOption_relabelOption m, Node.relabel_relabel e]
  | .apply t ps ns _ _ => by
    simp only [Node.relabel, Node.relabel_relabel t, Node.relabelAll_relabelAll ps, Node.relabelNamed_relabelNamed ns]
  | .index t p _ _ => by simp only [Node.relabel, Node.relabel_relabel t, Node.relabelOption_relabelOption p]
  | .slice t a b c _ => by
    simp only [Node.relabel, Node.relabel_relabel t, Node.relabelOption_relabelOption a, Node.relabelOption_relabelOption b,
      Node.relabelOption_relabelOption c]
  | .superIndex p _ _ => by simp only [Node.relabel, Node.relabelOption_relabelOption p]
  | .field _ n e _ _ m _ => by
    simp only [Node.relabel, Node.relabel_relabel n, Node.relabel_relabel e, Node.relabelOption_relabelOption m]
  | .objectLocal ⟨_, e, m, _⟩ _ => by
    simp only [Node.relabel, Node.relabel_relabel e, Node.relabelOption_relabelOption m, Function.comp_apply]
  | .objectAssert c m _ => by simp only [Node.relabel, Node.relabel_relabel c, Node.relabelOption_relabelOption m]
  | .object ms _ => by simp only [Node.relabel, Node.relabelAll_relabelAll ms]
  | .objectComp ms ss _ => by simp only [Node.relabel, Node.relabelAll_relabelAll ms, Node.relabelAll_relabelAll ss]
  | .array es _ => by simp only [Node.relabel, Node.relabelAll_relabelAll es]
  | .arrayComp e ss _ => by simp only [Node.relabel, Node.relabel_relabel e, Node.relabelAll_relabelAll ss]

theorem Node.relabelOption_relabelOption : ∀ o : Option Node,
    relabelOption f' g' (relabelOption f g o) = relabelOption (f' ∘ f) (g' ∘ g) o
  | none => rfl
  | some e => by simp only [Node.relabelOption, Node.relabel_relabel e]

theorem Node.relabelAll_relabelAll : ∀ es : List Node,
    relabelAll f' g' (relabelAll f g es) = relabelAll (f' ∘ f) (g' ∘ g) es
  | [] => rfl
  | e :: es => by simp only [Node.relabelAll, Node.relabel_relabel e, Node.relabelAll_relabelAll es]

theorem Node.relabelParams_relabelParams : ∀ ps : List (Param Node),
    relabelParams f' g' (relabelParams f g ps) = relabelParams (f' ∘ f) (g' ∘ g) ps
  | [] => rfl
  | ⟨_, v, _⟩ :: ps => by
    simp only [Node.relabelParams, Node.relabelOption_relabelOption v, Node.relabelParams_relabelParams ps, Function.comp_apply]

theorem Node.relabelBinds_relabelBinds : ∀ bs : List (Bind Node),
    relabelBinds f' g' (relabelBinds f g bs) = relabelBinds (f' ∘ f) (g' ∘ g) bs
  | [] => rfl
  | ⟨_, e, m, _⟩ :: bs => by
    simp only [Node.relabelBinds, Node.relabel_relabel e, Node.relabelOption_relabelOption m, Node.relabelBinds_relabelBinds bs,
      Function.comp_apply]

theorem Node.relabelNamed_relabelNamed : ∀ ns : List (NamedArg Node),
    relabelNamed f' g' (relabelNamed f g ns) = relabelNamed (f' ∘ f) (g' ∘ g) ns
  | [] => rfl
  | ⟨_, e, _⟩ :: ns => by simp only [Node.relabelNamed, Node.relabel_relabel e, Node.relabelNamed_relabelNamed ns]

end

end Twice

/-! ## Constructs in progress -/

/-- New names of binds and variables, for texts and for the characters of a token. -/
structure Renaming where
  name : Text → Text
  spell : List Char → List Char
  name_ofChars (cs : List Char) : name (.ofChars cs) = .ofChars (spell cs)

def Renaming.same : Renaming := ⟨id, id, fun _ => rfl⟩

def Node.rename (r : Renaming) : Node → Node := Node.relabel r.name id

/-- The token without its place, with its name changed if it names a bind or a variable. -/
def Token.rename (r : Renaming) (isOccurrence : Bool) (t : Token) : Token :=
  ⟨t.terminal, if isOccurrence then r.spell t.text else t.text, .unset⟩

section Machine

variable (r : Renaming)

def ArrayHead.rename (h : ArrayHead) : ArrayHead := ⟨.unset, h.elements.map (Node.rename r)⟩

def ObjectHead.rename (h : ObjectHead) : ObjectHead :=
  ⟨h.base.map (Node.rename r), .unset, h.members.map (Node.rename r)⟩

def CompHead.rename : CompHead → CompHead
  | .array h => .array (h.rename r)
  | .object h => .object (h.rename r)

def BindPlace.rename : BindPlace → BindPlace
  | .inExpr _ bs => .inExpr .unset (bs.map (Bind.relabel r.name id))
  | .inObject o _ => .inObject (o.rename r) .unset

def FieldHead.rename (h : FieldHead) : FieldHead := ⟨h.object.rename r, .unset, h.kind, h.name.rename r⟩

def ParamOwner.rename : ParamOwner → ParamOwner
  | .function _ => .function .unset
  | .bind p t => .bind (p.rename r) (t.rename r true)
  | .method f => .method (f.rename r)

def Argument.rename : Argument → Argument
  | .positional e => .positional (e.rename r)
  | .named a => .named (a.relabel r.name id)

def Frame.rename : Frame → Frame
  | .unary op _ => .unary op .unset
  | .binary e op => .binary (e.rename r) op
  | .localBody _ bs => .localBody .unset (bs.map (Bind.relabel r.name id))
  | .thenBranch _ c => .thenBranch .unset (c.rename r)
  | .elseBranch _ c y => .elseBranch .unset (c.rename r) (y.rename r)
  | .functionBody _ ps => .functionBody .unset (ps.map (Param.relabel r.name id))
  | .assertRest _ c g => .assertRest .unset (c.rename r) (g.map (Node.rename r))
  | .errorBody _ => .errorBody .unset
  | .parens _ => .parens .unset
  | .ifCond _ => .ifCond .unset
  | .assertCond _ => .assertCond .unset
  | .assertMessage _ c => .assertMessage .unset (c.rename r)
  | .bindValue p t ps => .bindValue (p.rename r) (t.rename r true) (ps.map (List.map (Param.relabel r.name id)))
  | .paramValue o ps t => .paramValue (o.rename r) (ps.map (Param.relabel r.name id)) (t.rename r false)
  | .index e => .index (e.rename r)
  | .sliceStop e a => .sliceStop (e.rename r) (a.map (Node.rename r))
  | .sliceStep e a b => .sliceStep (e.rename r) (a.map (Node.rename r)) (b.map (Node.rename r))
  | .superIndex _ => .superIndex .unset
  | .argument e as t => .argument (e.rename r) (as.map (Argument.rename r)) (t.map (Token.rename r false))
  | .element h => .element (h.rename r)
  | .computedName o _ => .computedName (o.rename r) .unset
  | .fieldBody f ps p v => .fieldBody (f.rename r) (ps.map (List.map (Param.relabel r.name id))) p v
  | .objectAssertCond o _ => .objectAssertCond (o.rename r) .unset
  | .objectAssertMessage o _ c => .objectAssertMessage (o.rename r) .unset (c.rename r)
  | .forSource h ss _ t => .forSource (h.rename r) (ss.map (Node.rename r)) .unset (t.rename r false)
  | .ifSpec h ss _ => .ifSpec (h.rename r) (ss.map (Node.rename r)) .unset

/-- The focus under other names; `isOccurrence` tells whether the name that begins an argument is a
    variable. -/
def Focus.rename (isOccurrence : Bool) : Focus → Focus
  | .operand => .operand
  | .whole e c => .whole (e.rename r) c
  | .inSuper _ => .inSuper .unset
  | .afterSuper _ => .afterSuper .unset
  | .superField _ => .superField .unset
  | .importPath k _ => .importPath k .unset
  | .fieldAccess e => .fieldAccess (e.rename r)
  | .subscript e => .subscript (e.rename r)
  | .sliceStop e a => .sliceStop (e.rename r) (a.map (Node.rename r))
  | .sliceStep e a b => .sliceStep (e.rename r) (a.map (Node.rename r)) (b.map (Node.rename r))
  | .argument e as => .argument (e.rename r) (as.map (Argument.rename r))
  | .argumentName e as t => .argumentName (e.rename r) (as.map (Argument.rename r)) (t.rename r isOccurrence)
  | .element h => .element (h.rename r)
  | .nextElement h => .nextElement (h.rename r)
  | .member o => .member (o.rename r)
  | .nextMember o => .nextMember (o.rename r)
  | .afterFieldName f c => .afterFieldName (f.rename r) c
  | .plusVisibility f => .plusVisibility (f.rename r)
  | .bindName p => .bindName (p.rename r)
  | .afterBindName p t => .afterBindName (p.rename r) (t.rename r true)
  | .paramsOpen _ => .paramsOpen .unset
  | .param o ps => .param (o.rename r) (ps.map (Param.relabel r.name id))
  | .afterParamName o ps t => .afterParamName (o.rename r) (ps.map (Param.relabel r.name id)) (t.rename r false)
  | .afterParams o ps => .afterParams (o.rename r) (ps.map (Param.relabel r.name id))
  | .forName h ss _ => .forName (h.rename r) (ss.map (Node.rename r)) .unset
  | .forIn h ss _ t => .forIn (h.rename r) (ss.map (Node.rename r)) .unset (t.rename r false)

/-- A move under other names, without the place of its fault. -/
def Move.outline (isOccurrence : Bool) (m : Move) : List Frame × Focus × Bool :=
  (m.push.map (Frame.rename r), m.focus.rename r isOccurrence, m.fault.isSome)

def State.rename (isOccurrence : Bool) (s : State) : State :=
  ⟨s.stack.map (Frame.rename r), s.focus.rename r isOccurrence, s.fault⟩

end Machine

def Move.parts (m : Move) : List Frame × Focus × Bool := (m.push, m.focus, m.fault.isSome)

def State.parts (s : State) : List Frame × Focus × Bool := (s.stack, s.focus, s.fault.isSome)

def State.outline (r : Renaming) (isOccurrence : Bool) (s : State) : List Frame × Focus × Bool :=
  (s.rename r isOccurrence).parts

/-! ## Finished constructs -/

section Finish

variable {r : Renaming} {o b : Bool}

@[simp] theorem Range.unset_upTo : Range.unset.upTo .unset = .unset := rfl

@[simp] theorem Token.terminal_rename (t : Token) : (t.rename r o).terminal = t.terminal := by
  rw [Token.rename]

@[simp] theorem Token.range_rename (t : Token) : (t.rename r o).range = .unset := rfl

@[simp] theorem Token.isSymbol_rename (t : Token) (s : Symbol) : (t.rename r o).isSymbol s = t.isSymbol s := by
  rw [Token.isSymbol, Token.isSymbol, Token.terminal_rename]

@[simp] theorem Token.text_rename (t : Token) : (t.rename r false).text = t.text := rfl

@[simp] theorem Token.spelling_rename (t : Token) : (t.rename r true).spelling = r.name t.spelling :=
  (r.name_ofChars t.text).symm

@[simp] theorem Token.spelling_rename_false (t : Token) : (t.rename r false).spelling = t.spelling := rfl

/-- When the names stay, it does not matter which of them are variables. -/
theorem Token.rename_same (t : Token) (o : Bool) : t.rename .same o = ⟨t.terminal, t.text, .unset⟩ := by
  cases o <;> rfl

@[simp] theorem Node.range_rename (e : Node) : (e.rename r).range = .unset := Node.range_relabel ..

theorem paramOf_rename (t : Token) (v : Option Node) :
    paramOf (t.rename r false) (v.map (Node.rename r)) = (paramOf t v).relabel r.name id := rfl

theorem bindOf_rename (t : Token) (ps : Option (List (Param Node))) (e : Node) :
    bindOf (t.rename r true) (ps.map (List.map (Param.relabel r.name id))) (e.rename r) =
      (bindOf t ps e).relabel r.name id := by
  cases ps <;> simp [bindOf, Bind.relabel, Node.rename, Node.relabel]

theorem objectLocal_rename (t : Token) (ps : Option (List (Param Node))) (e : Node) (s : Range) :
    .objectLocal (bindOf (t.rename r true) (ps.map (List.map (Param.relabel r.name id))) (e.rename r))
      (Range.unset.upTo (e.rename r).range) = (Node.objectLocal (bindOf t ps e) s).rename r := by
  rw [bindOf_rename, Node.range_rename]
  simp [Node.rename, Node.relabel, Bind.relabel]

theorem argumentOf_rename (t : Option Token) (e : Node) :
    argumentOf (t.map (Token.rename r false)) (e.rename r) = (argumentOf t e).rename r := by
  cases t <;> simp [argumentOf, Argument.rename, NamedArg.relabel, Node.rename]

theorem fieldOf_rename (f : FieldHead) (ps : Option (List (Param Node))) (p : Bool) (v : Visibility) (e : Node) :
    fieldOf (f.rename r) (ps.map (List.map (Param.relabel r.name id))) p v (e.rename r) = (fieldOf f ps p v e).rename r := by
  cases ps <;> simp [fieldOf, FieldHead.rename, Node.rename, Node.relabel]

theorem sortArguments_rename (as : List Argument) :
    sortArguments (as.map (Argument.rename r)) =
      (((sortArguments as).1.1.map (Node.rename r), (sortArguments as).1.2.map (NamedArg.relabel r.name id)),
        (sortArguments as).2) := by
  induction as with
  | nil => rfl
  | cons a as ih => cases a <;> simp [sortArguments, Argument.rename, ih]

theorem extendBase_rename (h : ObjectHead) (close : Range) (e : Node) :
    extendBase (h.rename r) .unset (e.rename r) = (extendBase h close e).rename r := by
  unfold extendBase ObjectHead.rename
  cases h.base <;> simp [Node.rename, Node.relabel]

theorem isField_rename (e : Node) : isField (e.rename r) = isField e := by cases e <;> rfl

theorem isObjectAssert_rename (e : Node) : isObjectAssert (e.rename r) = isObjectAssert e := by cases e <;> rfl

theorem isComputedField_rename (e : Node) : isComputedField (e.rename r) = isComputedField e := by
  cases e with
  | field k => cases k <;> rfl
  | _ => rfl

theorem membersFault_rename (ms : List Node) (p q : Position) :
    (membersFault (ms.map (Node.rename r)) p).isSome = (membersFault ms q).isSome := by
  have hasserts : (ms.map (Node.rename r)).any isObjectAssert = ms.any isObjectAssert := by
    simp [Function.comp_def, isObjectAssert_rename]
  have hfields : (ms.map (Node.rename r)).filter isField = (ms.filter isField).map (Node.rename r) := by
    simp [List.filter_map, Function.comp_def, isField_rename]
  unfold membersFault
  rw [hasserts, hfields]
  by_cases h : ms.any isObjectAssert
  · simp [h]
  · rw [if_neg h, if_neg h]
    match ms.filter isField with
    | [] | _ :: _ :: _ => rfl
    | [f] =>
      simp only [List.map_cons, List.map_nil, isComputedField_rename]
      split <;> rfl

theorem elementsFault_rename (es : List Node) (p q : Position) :
    (elementsFault (es.map (Node.rename r)) p).isSome = (elementsFault es q).isSome := by
  unfold elementsFault
  rw [List.length_map]
  split <;> rfl

@[simp] theorem Move.outline_goTo (f : Focus) : (goTo f).outline r b = (goTo (f.rename r b)).parts := rfl
@[simp] theorem Move.outline_await (f : Frame) : (await f).outline r b = (await (f.rename r)).parts := rfl
@[simp] theorem Move.outline_done (e : Node) : (done e).outline r b = (done (e.rename r)).parts := rfl

theorem finishCall_rename (e : Node) (as : List Argument) (close : Range) :
    (finishCall (e.rename r) (as.map (Argument.rename r)) .unset).parts = (finishCall e as close).outline r b := by
  simp only [finishCall, ← List.map_reverse, sortArguments_rename]
  split <;> simp [Move.parts, Move.outline, Focus.rename, Node.rename, Node.relabel]

theorem finishArray_rename (h : ArrayHead) (close : Range) :
    (finishArray (h.rename r) .unset).parts = (finishArray h close).outline r b := by
  simp [finishArray, ArrayHead.rename, Node.rename, Node.relabel]

theorem finishObject_rename (h : ObjectHead) (close : Range) :
    (finishObject (h.rename r) .unset).parts = (finishObject h close).outline r b := by
  rw [finishObject, finishObject, Move.outline_done, ← extendBase_rename]
  simp [ObjectHead.rename, Node.rename, Node.relabel]

theorem finishComp_rename (h : CompHead) (ss : List Node) (close : Range) :
    (finishComp (h.rename r) (ss.map (Node.rename r)) .unset).parts = (finishComp h ss close).outline r b := by
  cases h with
  | array h =>
    simp only [finishComp, CompHead.rename, Move.parts, Move.outline, Focus.rename]
    rw [ArrayHead.rename, elementsFault_rename h.elements _ h.opening.start]
    cases h.elements <;> simp [Node.rename, Node.relabel]
  | object h =>
    simp only [finishComp, CompHead.rename, Move.parts, Move.outline, Focus.rename]
    rw [← extendBase_rename]
    simp [ObjectHead.rename, Node.rename, Node.relabel, ← List.map_reverse]
    exact membersFault_rename ..

/-! ## Closing -/

theorem Frame.close_rename (f : Frame) (e : Node) :
    (f.rename r).close (e.rename r) = (f.close e).map fun p => (p.1.rename r, p.2) := by
  cases f <;> simp [Frame.rename, Frame.close, Node.rename, Node.relabel]

theorem Frame.bindsAtLeast_rename (f : Frame) (level : Nat) :
    (f.rename r).bindsAtLeast level = f.bindsAtLeast level := by cases f <;> rfl

theorem afterMember_rename (h : ObjectHead) {e e' : Node} (he : e' = e.rename r) (t : Token) :
    (afterMember (h.rename r) e' (t.rename r o)).map Move.parts = (afterMember h e t).map (Move.outline r b) := by
  subst he
  have hobj : ({ h.rename r with members := e.rename r :: (h.rename r).members } : ObjectHead) =
      ObjectHead.rename r { h with members := e :: h.members } := rfl
  simp only [afterMember, hobj, Token.terminal_rename]
  split
  · rfl
  · exact congrArg some (finishObject_rename ..)
  · rfl
  · rfl

theorem afterSpec_rename (h : CompHead) {ss ss' : List Node} (hs : ss' = ss.map (Node.rename r)) (t : Token) :
    (afterSpec (h.rename r) ss' (t.rename r o)).map Move.parts = (afterSpec h ss t).map (Move.outline r b) := by
  subst hs
  obtain ⟨terminal, text, range⟩ := t
  cases terminal with
  | symbol s =>
    cases h with
    | array h => cases s <;> first | rfl | exact congrArg some (finishComp_rename (.array h) ss range)
    | object h => cases s <;> first | rfl | exact congrArg some (finishComp_rename (.object h) ss range)
  | _ => rfl

theorem Frame.resume_rename (f : Frame) (e : Node) (t : Token) :
    ((f.rename r).resume (e.rename r) (t.rename r o)).map Move.parts = (f.resume e t).map (Move.outline r b) := by
  cases f with
  | bindValue p n ps =>
    cases p with
    | inExpr opening bs =>
      simp [Frame.rename, Frame.resume, BindPlace.rename, bindOf_rename, apply_ite (Option.map Move.parts),
        apply_ite (Option.map (Move.outline r b)), Focus.rename]
    | inObject h opening =>
      exact afterMember_rename h (objectLocal_rename ..) t
  | fieldBody f ps p v => exact afterMember_rename f.object (fieldOf_rename ..) t
  | objectAssertCond h opening =>
    simp only [Frame.rename, Frame.resume, Token.isSymbol_rename]
    by_cases hc : t.isSymbol .colon
    · simp [hc, Frame.rename]
    · rw [if_neg hc, if_neg hc]
      exact afterMember_rename h (by simp [Node.rename, Node.relabel]) t
  | objectAssertMessage h opening c => exact afterMember_rename h (by simp [Node.rename, Node.relabel]) t
  | forSource h ss opening n => exact afterSpec_rename h (by simp [Node.rename, Node.relabel]) t
  | ifSpec h ss opening => exact afterSpec_rename h (by simp [Node.rename, Node.relabel]) t
  | argument target as n =>
    have hcall := finishCall_rename (r := r) (b := b) target (argumentOf n e :: as) t.range
    simp_all [Frame.rename, Frame.resume, argumentOf_rename, apply_ite (Option.map Move.parts),
      apply_ite (Option.map (Move.outline r b)), Focus.rename]
  | element h =>
    have harray := finishArray_rename (r := r) (b := b) { h with elements := e :: h.elements } t.range
    simp_all [Frame.rename, Frame.resume, ArrayHead.rename, CompHead.rename, apply_ite (Option.map Move.parts),
      apply_ite (Option.map (Move.outline r b)), Focus.rename]
  | paramValue owner ps n =>
    simp [Frame.rename, Frame.resume, apply_ite (Option.map Move.parts), apply_ite (Option.map (Move.outline r b)),
      Focus.rename, ← paramOf_rename]
  | computedName h opening =>
    simp [Frame.rename, Frame.resume, apply_ite (Option.map Move.parts), apply_ite (Option.map (Move.outline r b)),
      Focus.rename, FieldHead.rename]
  | _ =>
    simp [Frame.rename, Frame.resume, apply_ite (Option.map Move.parts), apply_ite (Option.map (Move.outline r b)),
      Focus.rename, Node.rename, Node.relabel]

end Finish

end JsonnetLocals
