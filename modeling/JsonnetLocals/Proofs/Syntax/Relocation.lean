/-
  JsonnetLocals.Proofs.Syntax.Relocation — the same text elsewhere.

  A relocation takes the ranges of a text to another file or to other places. The grammar looks at no
  place, so relocated words derive the relocated tree (`Derives.relocate`), and a text that is read behind
  another one, or under another name, is cut into the relocated words and has the relocated tree
  (`parseFrom_relocate`).
-/

import JsonnetLocals.Proofs.Syntax.Language

namespace JsonnetLocals

/-- Where the names of files and the places in them go. -/
structure Relocation where
  file : Text → Text
  place : Position → Position

def Range.relocate (m : Relocation) (r : Range) : Range := ⟨m.file r.file, m.place r.start, m.place r.stop⟩

/-! ## Trees -/

mutual

def Node.relocate (m : Relocation) : Node → Node
  | .null r => .null (r.relocate m)
  | .bool b r => .bool b (r.relocate m)
  | .number v s r => .number v s (r.relocate m)
  | .string v k r => .string v k (r.relocate m)
  | .self r => .self (r.relocate m)
  | .dollar r => .dollar (r.relocate m)
  | .var n r => .var n (r.relocate m)
  | .function ps e r => .function (Node.relocateParams m ps) (e.relocate m) (r.relocate m)
  | .localIn bs e r => .localIn (Node.relocateBinds m bs) (e.relocate m) (r.relocate m)
  | .binary a op b r => .binary (a.relocate m) op (b.relocate m) (r.relocate m)
  | .unary op e r => .unary op (e.relocate m) (r.relocate m)
  | .conditional c y n r => .conditional (c.relocate m) (y.relocate m) (Node.relocateOption m n) (r.relocate m)
  | .assertion c g e r => .assertion (c.relocate m) (Node.relocateOption m g) (e.relocate m) (r.relocate m)
  | .error e r => .error (e.relocate m) (r.relocate m)
  | .parens e r => .parens (e.relocate m) (r.relocate m)
  | .importFile k e r => .importFile k (e.relocate m) (r.relocate m)
  | .apply t ps ns s r =>
    .apply (t.relocate m) (Node.relocateAll m ps) (Node.relocateNamed m ns) s (r.relocate m)
  | .applyBrace a b r => .applyBrace (a.relocate m) (b.relocate m) (r.relocate m)
  | .index t p f r => .index (t.relocate m) (Node.relocateOption m p) f (r.relocate m)
  | .slice t a b c r =>
    .slice (t.relocate m) (Node.relocateOption m a) (Node.relocateOption m b) (Node.relocateOption m c) (r.relocate m)
  | .superIndex p f r => .superIndex (Node.relocateOption m p) f (r.relocate m)
  | .inSuper e r => .inSuper (e.relocate m) (r.relocate m)
  | .field k n e v p f r =>
    .field k (n.relocate m) (e.relocate m) v p (Node.relocateOption m f) (r.relocate m)
  | .objectLocal ⟨n, e, f, r⟩ r' =>
    .objectLocal ⟨n, e.relocate m, Node.relocateOption m f, r.relocate m⟩ (r'.relocate m)
  | .objectAssert c g r => .objectAssert (c.relocate m) (Node.relocateOption m g) (r.relocate m)
  | .object ms r => .object (Node.relocateAll m ms) (r.relocate m)
  | .forSpec n e r => .forSpec n (e.relocate m) (r.relocate m)
  | .ifSpec e r => .ifSpec (e.relocate m) (r.relocate m)
  | .objectComp ms ss r => .objectComp (Node.relocateAll m ms) (Node.relocateAll m ss) (r.relocate m)
  | .array es r => .array (Node.relocateAll m es) (r.relocate m)
  | .arrayComp e ss r => .arrayComp (e.relocate m) (Node.relocateAll m ss) (r.relocate m)

def Node.relocateOption (m : Relocation) : Option Node → Option Node
  | none => none
  | some e => some (e.relocate m)

def Node.relocateAll (m : Relocation) : List Node → List Node
  | [] => []
  | e :: es => e.relocate m :: Node.relocateAll m es

def Node.relocateParams (m : Relocation) : List (Param Node) → List (Param Node)
  | [] => []
  | ⟨n, v, r⟩ :: ps => ⟨n, Node.relocateOption m v, r.relocate m⟩ :: Node.relocateParams m ps

def Node.relocateBinds (m : Relocation) : List (Bind Node) → List (Bind Node)
  | [] => []
  | ⟨n, e, f, r⟩ :: bs => ⟨n, e.relocate m, Node.relocateOption m f, r.relocate m⟩ :: Node.relocateBinds m bs

def Node.relocateNamed (m : Relocation) : List (NamedArg Node) → List (NamedArg Node)
  | [] => []
  | ⟨n, e, r⟩ :: ns => ⟨n, e.relocate m, r.relocate m⟩ :: Node.relocateNamed m ns

end

section Tree

variable (m : Relocation)

def Param.relocate (p : Param Node) : Param Node := ⟨p.name, p.value.map (Node.relocate m), p.range.relocate m⟩

def Bind.relocate (b : Bind Node) : Bind Node :=
  ⟨b.name, b.body.relocate m, b.function.map (Node.relocate m), b.range.relocate m⟩

def NamedArg.relocate (a : NamedArg Node) : NamedArg Node := ⟨a.name, a.value.relocate m, a.range.relocate m⟩

@[simp] theorem Node.relocateOption_eq (o : Option Node) : relocateOption m o = o.map (relocate m) := by
  cases o <;> rfl

@[simp] theorem Node.relocateAll_eq (es : List Node) : relocateAll m es = es.map (relocate m) := by
  induction es with
  | nil => rfl
  | cons e es ih => rw [relocateAll, ih, List.map_cons]

@[simp] theorem Node.relocateParams_eq (ps : List (Param Node)) : relocateParams m ps = ps.map (Param.relocate m) := by
  induction ps with
  | nil => rfl
  | cons p ps ih => rw [relocateParams, ih, List.map_cons, relocateOption_eq]; rfl

@[simp] theorem Node.relocateBinds_eq (bs : List (Bind Node)) : relocateBinds m bs = bs.map (Bind.relocate m) := by
  induction bs with
  | nil => rfl
  | cons b bs ih => rw [relocateBinds, ih, List.map_cons, relocateOption_eq]; rfl

@[simp] theorem Node.relocateNamed_eq (ns : List (NamedArg Node)) : relocateNamed m ns = ns.map (NamedArg.relocate m) := by
  induction ns with
  | nil => rfl
  | cons n ns ih => rw [relocateNamed, ih, List.map_cons]; rfl

theorem Node.range_relocate (e : Node) : (e.relocate m).range = e.range.relocate m := by
  cases e <;> rfl

theorem Bind.child_relocate (b : Bind Node) : (b.relocate m).child = b.child.relocate m := by
  unfold Bind.child Bind.relocate
  cases b.function <;> rfl

theorem Node.children_relocate (e : Node) : (e.relocate m).children = e.children.map (relocate m) := by
  cases e with
  | function ps e => simp [relocate, children, List.map_filterMap, List.filterMap_map, Function.comp_def, Param.relocate]
  | localIn bs e => simp [relocate, children, Function.comp_def, Bind.child_relocate]
  | conditional c y n => cases n <;> simp [relocate, children]
  | assertion c g e => cases g <;> simp [relocate, children]
  | apply t ps ns => simp [relocate, children, NamedArg.relocate, Function.comp_def]
  | index t p => cases p <;> simp [relocate, children]
  | slice t a b c => cases a <;> cases b <;> cases c <;> simp [relocate, children]
  | superIndex p => cases p <;> simp [relocate, children]
  | field k n e v p f => cases f <;> simp [relocate, children]
  | objectLocal b =>
    obtain ⟨n, e, f, r⟩ := b
    cases f <;> simp [relocate, children, Bind.child]
  | objectAssert c g => cases g <;> simp [relocate, children]
  | _ => simp [relocate, children]

/-- Walking a relocated tree meets the relocated constructs. -/
theorem Node.walk_relocate (e : Node) : (e.relocate m).walk = e.walk.map (relocate m) := by
  induction e using Node.ind with
  | _ e ih =>
    rw [walk_eq, walk_eq, children_relocate, List.map_cons, List.map_flatMap, List.flatMap_map]
    congr 1
    exact List.flatMap_congr ih

/-! ## Greedy trees -/

theorem Node.lastLevel_relocate (e : Node) : (e.relocate m).lastLevel = e.lastLevel := by
  induction e using Node.lastLevel.induct with
  | case1 left op right r ih => exact ih
  | case2 e h =>
    cases e with
    | binary left op right r => exact absurd rfl (h left op right r)
    | _ => rfl

theorem Node.takes_relocate (k : Nat) (e : Node) : (e.relocate m).takes k = e.takes k := by
  induction e using Node.ind with
  | _ e ih =>
    cases e with
    | binary a op b r => exact ih b (by simp [children])
    | unary op e r => exact ih e (by simp [children])
    | localIn bs e r => rw [relocate, takes, takes, lastLevel_relocate, ih e (by simp [children])]
    | function ps e r => rw [relocate, takes, takes, lastLevel_relocate, ih e (by simp [children])]
    | assertion c g e r => rw [relocate, takes, takes, lastLevel_relocate, ih e (by simp [children])]
    | error e r => rw [relocate, takes, takes, lastLevel_relocate, ih e (by simp [children])]
    | conditional c y n r =>
      cases n with
      | none => rw [relocate, relocateOption, takes, takes, lastLevel_relocate, ih y (by simp [children])]
      | some e => rw [relocate, relocateOption, takes, takes, lastLevel_relocate, ih e (by simp [children])]
    | _ => rfl

theorem Node.endsOpen_relocate (e : Node) : (e.relocate m).endsOpen = e.endsOpen := by
  induction e using Node.ind with
  | _ e ih =>
    cases e with
    | binary a op b r => exact ih b (by simp [children])
    | unary op e r => exact ih e (by simp [children])
    | localIn bs e r => exact ih e (by simp [children])
    | function ps e r => exact ih e (by simp [children])
    | assertion c g e r => exact ih e (by simp [children])
    | error e r => exact ih e (by simp [children])
    | conditional c y n r =>
      cases n with
      | none => rfl
      | some e => exact ih e (by simp [children])
    | _ => rfl

theorem Node.greedyHere_relocate (e : Node) : (e.relocate m).greedyHere = e.greedyHere := by
  cases e with
  | binary a op b r => rw [relocate, greedyHere, greedyHere, takes_relocate]
  | inSuper e r => rw [relocate, greedyHere, greedyHere, takes_relocate]
  | conditional c y n r =>
    cases n with
    | none => rfl
    | some e => rw [relocate, relocateOption, greedyHere, greedyHere, endsOpen_relocate]
  | _ => rfl

theorem Node.Greedy.relocate {e : Node} (h : e.Greedy) : (e.relocate m).Greedy := by
  intro n hn
  rw [walk_relocate] at hn
  obtain ⟨c, hc, rfl⟩ := List.mem_map.mp hn
  rw [greedyHere_relocate]
  exact h c hc

end Tree

/-! ## Phrases -/

section Phrases

variable (m : Relocation)

def Token.relocate (t : Token) : Token := ⟨t.terminal, t.text, t.range.relocate m⟩

def Word.relocate (w : Word) : Word := ⟨w.before, w.token.relocate m, w.role⟩

def Argument.relocate : Argument → Argument
  | .positional e => .positional (e.relocate m)
  | .named a => .named (a.relocate m)

mutual

def Phrase.relocate : Phrase → Phrase
  | .expr l e => .expr l (e.relocate m)
  | .opt o => .opt (o.map (Node.relocate m))
  | .string e => .string (e.relocate m)
  | .bind b => .bind (b.relocate m)
  | .param p => .param (p.relocate m)
  | .params ps => .params (ps.map (Param.relocate m))
  | .arg a => .arg (a.relocate m)
  | .call e => .call (e.relocate m)
  | .object e => .object (e.relocate m)
  | .member e => .member (e.relocate m)
  | .fieldName r k e => .fieldName (r.relocate m) k (e.relocate m)
  | .spec s => .spec (s.relocate m)
  | .specs ss => .specs (ss.map (Node.relocate m))
  | .seq ps => .seq (Phrase.relocateAll ps)
  | .items ps => .items (Phrase.relocateAll ps)

def Phrase.relocateAll : List Phrase → List Phrase
  | [] => []
  | p :: ps => p.relocate :: Phrase.relocateAll ps

end

theorem Phrase.relocateAll_eq (ps : List Phrase) : relocateAll m ps = ps.map (relocate m) := by
  induction ps with
  | nil => rfl
  | cons p ps ih => rw [relocateAll, ih, List.map_cons]

/-- Phrases of one kind, with their values elsewhere. -/
theorem Phrase.relocateAll_map {α : Type} (f : α → Phrase) (g : α → α) (h : ∀ x, (f x).relocate m = f (g x))
    (xs : List α) : relocateAll m (xs.map f) = (xs.map g).map f := by
  rw [relocateAll_eq, List.map_map, List.map_map]
  exact List.map_congr_left fun x _ => h x

theorem Phrase.relocateAll_binds (bs : List (Bind Node)) :
    relocateAll m (bs.map .bind) = (bs.map (Bind.relocate m)).map .bind :=
  relocateAll_map m .bind (Bind.relocate m) (fun _ => rfl) bs

theorem Phrase.relocateAll_params (ps : List (Param Node)) :
    relocateAll m (ps.map .param) = (ps.map (Param.relocate m)).map .param :=
  relocateAll_map m .param (Param.relocate m) (fun _ => rfl) ps

theorem Phrase.relocateAll_exprs (es : List Node) :
    relocateAll m (es.map (.expr 1)) = (es.map (Node.relocate m)).map (.expr 1) :=
  relocateAll_map m (.expr 1) (Node.relocate m) (fun _ => rfl) es

theorem Phrase.relocateAll_members (es : List Node) :
    relocateAll m (es.map .member) = (es.map (Node.relocate m)).map .member :=
  relocateAll_map m .member (Node.relocate m) (fun _ => rfl) es

theorem Phrase.relocateAll_positional (ps : List Node) :
    relocateAll m ((ps.map Argument.positional).map .arg) =
      ((ps.map (Node.relocate m)).map Argument.positional).map .arg := by
  rw [List.map_map, List.map_map]
  exact relocateAll_map m (.arg ∘ Argument.positional) (Node.relocate m) (fun _ => rfl) ps

theorem Phrase.relocateAll_named (ns : List (NamedArg Node)) :
    relocateAll m ((ns.map Argument.named).map .arg) = ((ns.map (NamedArg.relocate m)).map Argument.named).map .arg := by
  rw [List.map_map, List.map_map]
  exact relocateAll_map m (.arg ∘ Argument.named) (NamedArg.relocate m) (fun _ => rfl) ns

theorem Phrase.relocateAll_append (ps qs : List Phrase) :
    relocateAll m (ps ++ qs) = relocateAll m ps ++ relocateAll m qs := by
  rw [relocateAll_eq, relocateAll_eq, relocateAll_eq, List.map_append]

theorem Word.range_relocate (w : Word) : (w.relocate m).range = w.range.relocate m := rfl

theorem Range.relocate_upTo (a b : Range) : (a.upTo b).relocate m = (a.relocate m).upTo (b.relocate m) := rfl

theorem Node.isField_relocate (e : Node) : isField (e.relocate m) = isField e := by cases e <;> rfl

theorem Node.isObjectAssert_relocate (e : Node) : isObjectAssert (e.relocate m) = isObjectAssert e := by cases e <;> rfl

theorem Node.isComputedField_relocate (e : Node) : isComputedField (e.relocate m) = isComputedField e := by
  cases e with
  | field k => cases k <;> rfl
  | _ => rfl

theorem Word.Is.relocate {w : Word} {s : Symbol} (h : w.Is s) : (w.relocate m).Is s := h

theorem Word.IsName.relocate {w : Word} {role : Option OccurrenceKind} (h : w.IsName role) :
    (w.relocate m).IsName role := h

theorem Literal.stringValue_elsewhere {kind : StringKind} {text value : List Char} {p : Position} (q : Position)
    (h : stringValue kind text p = .ok value) : stringValue kind text q = .ok value := by
  have hoption := toOption_stringValue kind text q p
  rw [h] at hoption
  cases hq : stringValue kind text q with
  | ok => simpa [hq, Except.toOption] using hoption
  | error => simp [hq, Except.toOption] at hoption

/-- Relocated words are the relocated phrase. -/
theorem Derives.relocate {p : Phrase} {ts : List Word} (h : Derives p ts) :
    Derives (p.relocate m) (ts.map (Word.relocate m)) := by
  induction h
  all_goals
    simp only [Phrase.relocate, Node.relocate, Node.relocateOption_eq, Node.relocateAll_eq, Node.relocateParams_eq,
      Node.relocateBinds_eq, Node.relocateNamed_eq, Bind.relocate, Param.relocate, NamedArg.relocate, Argument.relocate,
      Phrase.relocateAll_binds, Phrase.relocateAll_params, Phrase.relocateAll_exprs, Phrase.relocateAll_members,
      Phrase.relocateAll_positional, Phrase.relocateAll_named, Phrase.relocateAll_append, Phrase.relocateAll,
      Option.map_none, Option.map_some, Range.relocate_upTo, ← Node.range_relocate, ← Word.range_relocate,
      List.map_append, List.map_cons, List.map_nil] at *
  case looser hl _ ih => exact .looser hl ih
  case binary ho _ hw _ ihl ihr => exact .binary ho ihl (hw.relocate m) ihr
  case inSuper _ hw hv ih => exact .inSuper ih (hw.relocate m) (hv.relocate m)
  case unary ho hw _ ih => exact .unary ho (hw.relocate m) ih
  case localIn hw _ hv _ ihe ihb => exact .localIn (hw.relocate m) ihb (hv.relocate m) ihe
  case ifThen hw _ hv _ ihc ihe => exact .ifThen (hw.relocate m) ihc (hv.relocate m) ihe
  case ifThenElse hw _ hv _ hx _ ihc ihy ihe =>
    exact .ifThenElse (hw.relocate m) ihc (hv.relocate m) ihy (hx.relocate m) ihe
  case function hw _ _ ihp ihe => exact .function (hw.relocate m) ihp ihe
  case assertion hw _ hv _ ihc ihe => exact .assertion (hw.relocate m) ihc (hv.relocate m) ihe
  case assertionMessage hw _ hv _ hx _ ihc ihg ihe =>
    exact .assertionMessage (hw.relocate m) ihc (hv.relocate m) ihg (hx.relocate m) ihe
  case error hw _ ih => exact .error (hw.relocate m) ih
  case valueBind hw hv _ ih => exact .valueBind (hw.relocate m) (hv.relocate m) ih
  case functionBind hw _ hv _ ihp ihe => exact .functionBind (hw.relocate m) ihp (hv.relocate m) ihe
  case params hw _ hv ih => exact .params (hw.relocate m) ih (hv.relocate m)
  case param hw => exact .param (hw.relocate m)
  case paramValue hw hv _ ih => exact .paramValue (hw.relocate m) (hv.relocate m) ih
  case fieldAccess _ hw hv ih => exact .fieldAccess ih (hw.relocate m) (hv.relocate m)
  case index _ hw _ hv ihe ihi => exact .index ihe (hw.relocate m) ihi (hv.relocate m)
  case slice _ hw _ hx _ hv ihe iha ihb => exact .slice ihe (hw.relocate m) iha (hx.relocate m) ihb (hv.relocate m)
  case sliceStep _ hw _ hx _ hy _ hv ihe iha ihb ihc =>
    exact .sliceStep ihe (hw.relocate m) iha (hx.relocate m) ihb (hy.relocate m) ihc (hv.relocate m)
  case sliceNoStop _ hw _ hx _ hv ihe iha ihc =>
    exact .sliceNoStop ihe (hw.relocate m) iha (hx.relocate m) ihc (hv.relocate m)
  case absent => exact .absent
  case present _ ih => exact .present ih
  case call _ hw hv ihe _ iha => exact .call ihe (hw.relocate m) (by rwa [List.map_append]) (hv.relocate m)
  case apply _ ih => exact .apply ih
  case tailstrict _ hw ih => exact .tailstrict ih (hw.relocate m)
  case positional _ ih => exact .positional ih
  case named hw hv _ ih => exact .named (hw.relocate m) (hv.relocate m) ih
  case applyBrace _ _ ihe iho => exact .applyBrace ihe iho
  case null hw => exact .null (hw.relocate m)
  case true hw => exact .true (hw.relocate m)
  case false hw => exact .false (hw.relocate m)
  case self hw => exact .self (hw.relocate m)
  case dollar hw => exact .dollar (hw.relocate m)
  case number ht hr => exact .number (w := .relocate m _) ht hr
  case var hw => exact .var (hw.relocate m)
  case stringLiteral hk hr hv => exact .stringLiteral (w := .relocate m _) hk hr (Literal.stringValue_elsewhere _ hv)
  case string _ ih => exact .string ih
  case parens hw _ hv ih => exact .parens (hw.relocate m) ih (hv.relocate m)
  case superField hw hx hv => exact .superField (hw.relocate m) (hx.relocate m) (hv.relocate m)
  case superIndex hw hx _ hv ih => exact .superIndex (hw.relocate m) (hx.relocate m) ih (hv.relocate m)
  case importFile hk hw _ ih => exact .importFile hk (hw.relocate m) ih
  case array hw _ hv ih => exact .array (hw.relocate m) ih (hv.relocate m)
  case arrayComp hw _ _ hv ihe ihs => exact .arrayComp (hw.relocate m) ihe ihs (hv.relocate m)
  case forSpec hw hn hv _ ih => exact .forSpec (hw.relocate m) (hn.relocate m) (hv.relocate m) ih
  case ifSpec hw _ ih => exact .ifSpec (hw.relocate m) ih
  case firstSpec _ ih => exact .firstSpec ih
  case nextSpec _ _ ihs ih => exact .nextSpec ihs ih
  case objectExpr _ ih => exact .objectExpr ih
  case object hw _ hv ih => exact .object (hw.relocate m) ih (hv.relocate m)
  case objectComp hw _ _ hv hassert hfield hcomputed ihs ihm =>
    refine .objectComp (hw.relocate m) ihm ihs (hv.relocate m) ?_ ?_ ((Node.isComputedField_relocate m _).trans hcomputed)
    · intro e he
      obtain ⟨e', he', rfl⟩ := List.mem_map.mp he
      rw [Node.isObjectAssert_relocate]
      exact hassert e' he'
    · rw [List.filter_map, show isField ∘ Node.relocate m = isField from funext (Node.isField_relocate m), hfield]
      rfl
  case objectLocal hw _ ih => exact .objectLocal (hw.relocate m) ih
  case objectAssert hw _ ih => exact .objectAssert (hw.relocate m) ih
  case objectAssertMessage hw _ hv _ ihe ihg => exact .objectAssertMessage (hw.relocate m) ihe (hv.relocate m) ihg
  case field _ hs hv _ ihn ihe => exact .field ihn hs (hv.relocate m) ihe
  case fieldPlus _ hx hs hv _ ihn ihe => exact .fieldPlus ihn (hx.relocate m) hs (hv.relocate m) ihe
  case method _ _ hs hv _ ihn ihp ihe => exact .method ihn ihp hs (hv.relocate m) ihe
  case idName hw => exact .idName (hw.relocate m)
  case stringName _ ih => exact .stringName ih
  case computedName hw _ hv ih => exact .computedName (hw.relocate m) ih (hv.relocate m)
  case one _ ih => exact .one ih
  case more _ hw _ ihs ih => exact .more ihs (hw.relocate m) ih
  case noItems => exact .noItems
  case items _ ih => exact .items ih
  case itemsComma _ hw ih => exact .itemsComma ih (hw.relocate m)

end Phrases

/-! ## Texts -/

theorem State.run_congr {s : State} {ts us : List Word} (h : ts.map Word.token = us.map Word.token) :
    s.run ts = s.run us := by
  induction ts generalizing s us with
  | nil => rw [List.map_eq_nil_iff.mp h.symm]
  | cons w ts ih =>
    obtain ⟨v, us, rfl, hv, hus⟩ := List.map_eq_cons_iff.mp h.symm
    rw [State.run, State.run, hv]
    split
    · exact congrArg (Option.bind (s.feed w.token)) (funext fun s' => ih hus.symm)
    · rfl

theorem map_token_significant (ws : List Word) :
    (significant ws).map Word.token = (ws.map Word.token).filter fun t => !t.terminal.isIgnored := by
  rw [List.filter_map]
  rfl

section Texts

variable {m : Relocation} {file : Text} {s u : State} {front before cs : List Char} {ws : List Word} {e : Node}

/-- The relocation takes the places of a text to those behind `front`. -/
def Relocation.Behind (m : Relocation) (front : List Char) : Prop :=
  ∀ before, m.place (placeAfter before) = placeAfter (front ++ before)

theorem Relocation.Behind.tokenAt (hm : m.Behind front) (t : Terminal) (text : List Char) :
    (tokenAt file before t text).relocate m = tokenAt (m.file file) (front ++ before) t text := by
  unfold JsonnetLocals.tokenAt Token.relocate Range.relocate
  rw [hm, hm, List.append_assoc]

/-- Behind another text, from a state that differs in places only, the same words are cut. -/
theorem Scans.exists_relocated (hm : m.Behind front) (h : Scans file s before cs ws e) (hu : u.Alike s) :
    ∃ ws' e', Scans (m.file file) u (front ++ before) cs ws' e' ∧
      ws'.map Word.token = (ws.map (Word.relocate m)).map Word.token := by
  induction h generalizing u with
  | stop hf hn =>
    obtain ⟨e', he', -⟩ := hu.finish hf
    exact ⟨[], e', .stop he' (hu.fault_eq.trans hn), rfl⟩
  | @skip s before text rest t ws e hfirst hi _ ih =>
    obtain ⟨ws', e', hscans, htokens⟩ := ih hu
    rw [← List.append_assoc] at hscans
    rw [← State.context_eq hu] at hfirst
    refine ⟨_, e', .skip hfirst hi hscans, ?_⟩
    rw [List.map_cons, List.map_cons, List.map_cons, htokens]
    exact congrArg (· :: _) (hm.tokenAt t text).symm
  | @take s s' before text rest t ws e hfirst hi hfeed hrest ih =>
    let w : Word := ⟨before, tokenAt file before t text, none⟩
    let v : Word := ⟨front ++ before, tokenAt (m.file file) (front ++ before) t text, none⟩
    have hstep : s.Step w s' := ⟨Terminal.first_allowed hfirst, hfeed⟩
    have hspelled : v.spelled = w.spelled := rfl
    obtain ⟨u', hstep', hu'⟩ := hu.step hspelled hstep hrest.fault_eq_none
    obtain ⟨ws', e', hscans, htokens⟩ := ih hu'
    rw [← List.append_assoc] at hscans
    rw [← State.context_eq hu] at hfirst
    refine ⟨_, e', .take hfirst hi hstep'.feed hscans, ?_⟩
    rw [List.map_cons, List.map_cons, List.map_cons, htokens]
    exact congrArg (· :: _) (hm.tokenAt t text).symm

/-- A text that is read has the same tree behind another text and under another name, with its ranges there. -/
theorem parseFrom_relocate (hm : m.Behind front) (h : parseChars file cs = .ok e) (last : Position) :
    parseFrom (m.file file) .start (placeAfter front) last cs = .ok (e.relocate m) := by
  have hscans : Scans file .start [] cs (words file cs) e := scans_of_parseFrom h
  obtain ⟨-, -, hd, hg⟩ := hscans.isAst
  obtain ⟨ws', e', hscans', htokens⟩ := hscans.exists_relocated hm (u := .start) rfl
  rw [List.append_nil] at hscans'
  -- both trees end a run over the same tokens
  obtain ⟨t, hrun, hfinish, -⟩ := (hscans.derives.relocate m).run (hg.relocate m)
  obtain ⟨t', hrun', hfinish'⟩ := hscans'.run
  have hsame : (significant ws').map Word.token =
      ((significant (words file cs)).map (Word.relocate m)).map Word.token := by
    rw [map_token_significant, htokens, List.map_map, List.map_map, List.filter_map, ← List.map_map, significant,
      List.map_map]
    rfl
  rw [State.run_congr hsame, hrun] at hrun'
  obtain rfl : t = t' := Option.some.inj hrun'
  obtain rfl : e.relocate m = e' := Option.some.inj (hfinish.symm.trans hfinish')
  exact hscans'.parseFrom_eq last

end Texts

end JsonnetLocals
