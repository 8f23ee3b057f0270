/-
  JsonnetLocals.Proofs.Syntax.Fields — the binds and variables of a tree, field by field.

  Walking a tree goes through `Node.children`, which leaves out the body of a function bind and of a method:
  the body is the body of the function too, and is met there. Here the tree is taken apart by its
  fields alone:
  - `Node.fields` are all the nodes that a construct holds, the bodies included, and `Node.Within` is
    what they lead to, at any depth;
  - `Node.occurrences` lists the binds and variables by recursion over the fields, a shared body once.
  For trees whose bodies are shared, the list leaves out nothing that is within the tree
  (`Node.SharesBodies.mem_occurrences_iff`), and the passes of renaming meet exactly the list
  (`Node.occurrences_perm`).
-/

import JsonnetLocals.Rename.Renamer
import Mathlib.Data.List.Perm.Basic
import Mathlib.Tactic.Common

namespace JsonnetLocals

/-! ## Fields -/

def Bind.fields (b : Bind Node) : List Node := b.body :: b.function.toList

namespace Node

/-- All the nodes that the construct holds, whichever of its fields they are in. -/
def fields : Node → List Node
  | null _ | bool _ _ | number _ _ _ | string _ _ _ | self _ | dollar _ | var _ _ => []
  | function params body _ => params.flatMap (·.value.toList) ++ [body]
  | localIn binds body _ => binds.flatMap Bind.fields ++ [body]
  | binary left _ right _ => [left, right]
  | unary _ operand _ => [operand]
  | conditional cond yes no _ => [cond, yes] ++ no.toList
  | assertion cond message rest _ => [cond] ++ message.toList ++ [rest]
  | error message _ => [message]
  | parens inner _ => [inner]
  | importFile _ file _ => [file]
  | apply target args named _ _ => [target] ++ args ++ named.map (·.value)
  | applyBrace left right _ => [left, right]
  | index target position _ _ => [target] ++ position.toList
  | slice target start stop step _ => [target] ++ start.toList ++ stop.toList ++ step.toList
  | superIndex position _ _ => position.toList
  | inSuper key _ => [key]
  | field _ name body _ _ method _ => [name, body] ++ method.toList
  | objectLocal bind _ => bind.fields
  | objectAssert cond message _ => [cond] ++ message.toList
  | object members _ => members
  | forSpec _ source _ => [source]
  | ifSpec cond _ => [cond]
  | objectComp members specs _ => members ++ specs
  | array elements _ => elements
  | arrayComp body specs _ => [body] ++ specs

inductive Within : Node → Node → Prop where
  | here (n : Node) : Within n n
  | inField {n c m : Node} (hc : c ∈ n.fields) (hm : Within c m) : Within n m

/-! ## Occurrences -/

mutual

/-- The binds and variables of a tree. The body of a function bind and of a method is that of its
    function and is counted there. -/
def occurrences : Node → List Occurrence
  | .null _ | .bool _ _ | .number _ _ _ | .string _ _ _ | .self _ | .dollar _ => []
  | .var name range => [⟨.reference, name, range⟩]
  | .function params body _ => occurrencesOfParams params ++ body.occurrences
  | .localIn binds body _ => binds.map (fun b => ⟨.bind, b.name, b.range⟩) ++ occurrencesOfBinds binds ++ body.occurrences
  | .binary left _ right _ | .applyBrace left right _ => left.occurrences ++ right.occurrences
  | .unary _ e _ | .error e _ | .parens e _ | .importFile _ e _ | .inSuper e _ | .forSpec _ e _ | .ifSpec e _ =>
    e.occurrences
  | .conditional cond yes no _ => cond.occurrences ++ yes.occurrences ++ occurrencesOfOption no
  | .assertion cond message rest _ => cond.occurrences ++ occurrencesOfOption message ++ rest.occurrences
  | .apply target args named _ _ => target.occurrences ++ occurrencesOfAll args ++ occurrencesOfNamed named
  | .index target position _ _ => target.occurrences ++ occurrencesOfOption position
  | .slice target start stop step _ =>
    target.occurrences ++ occurrencesOfOption start ++ occurrencesOfOption stop ++ occurrencesOfOption step
  | .superIndex position _ _ => occurrencesOfOption position
  | .field _ name body _ _ none _ => name.occurrences ++ body.occurrences
  | .field _ name _ _ _ (some f) _ => name.occurrences ++ f.occurrences
  | .objectLocal ⟨name, body, none, range⟩ _ => ⟨.bind, name, range⟩ :: body.occurrences
  | .objectLocal ⟨name, _, some f, range⟩ _ => ⟨.bind, name, range⟩ :: f.occurrences
  | .objectAssert cond message _ => cond.occurrences ++ occurrencesOfOption message
  | .object nodes _ | .array nodes _ => occurrencesOfAll nodes
  | .objectComp members specs _ => occurrencesOfAll members ++ occurrencesOfAll specs
  | .arrayComp body specs _ => body.occurrences ++ occurrencesOfAll specs

def occurrencesOfOption : Option Node → List Occurrence
  | none => []
  | some e => e.occurrences

def occurrencesOfAll : List Node → List Occurrence
  | [] => []
  | e :: rest => e.occurrences ++ occurrencesOfAll rest

def occurrencesOfParams : List (Param Node) → List Occurrence
  | [] => []
  | ⟨_, value, _⟩ :: rest => occurrencesOfOption value ++ occurrencesOfParams rest

def occurrencesOfBinds : List (Bind Node) → List Occurrence
  | [] => []
  | ⟨_, body, none, _⟩ :: rest => body.occurrences ++ occurrencesOfBinds rest
  | ⟨_, _, some f, _⟩ :: rest => f.occurrences ++ occurrencesOfBinds rest

def occurrencesOfNamed : List (NamedArg Node) → List Occurrence
  | [] => []
  | ⟨_, value, _⟩ :: rest => value.occurrences ++ occurrencesOfNamed rest

end

/-! ## What the passes meet -/

def ownOccurrences (n : Node) : List Occurrence := n.binds.map Occurrence.ofBind ++ n.reference?.toList

theorem occurrencesOfOption_eq (o : Option Node) : occurrencesOfOption o = o.toList.flatMap occurrences := by
  cases o with
  | none => rfl
  | some e => simp [occurrencesOfOption]

theorem occurrencesOfAll_eq (es : List Node) : occurrencesOfAll es = es.flatMap occurrences := by
  induction es with
  | nil => rfl
  | cons e es ih => rw [occurrencesOfAll, ih, List.flatMap_cons]

theorem occurrencesOfParams_eq (ps : List (Param Node)) :
    occurrencesOfParams ps = (ps.filterMap (·.value)).flatMap occurrences := by
  induction ps with
  | nil => rfl
  | cons p ps ih =>
    obtain ⟨name, value, range⟩ := p
    cases value <;> simp [occurrencesOfParams, occurrencesOfOption, ih]

theorem occurrencesOfBinds_eq (bs : List (Bind Node)) :
    occurrencesOfBinds bs = (bs.map (·.child)).flatMap occurrences := by
  induction bs with
  | nil => rfl
  | cons b bs ih =>
    obtain ⟨name, body, function, range⟩ := b
    cases function <;> simp [occurrencesOfBinds, Bind.child, ih]

theorem occurrencesOfNamed_eq (ns : List (NamedArg Node)) :
    occurrencesOfNamed ns = (ns.map (·.value)).flatMap occurrences := by
  induction ns with
  | nil => rfl
  | cons n ns ih =>
    obtain ⟨name, value, range⟩ := n
    simp [occurrencesOfNamed, ih]

/-- The occurrences of a construct are its own and those of its parts. -/
theorem occurrences_perm_children (n : Node) :
    n.occurrences.Perm (n.ownOccurrences ++ n.children.flatMap occurrences) := by
  cases n with
  | objectComp members specs range =>
    simpa [occurrences, ownOccurrences, binds, reference?, children, occurrencesOfAll_eq] using List.perm_append_comm
  | arrayComp body specs range =>
    simpa [occurrences, ownOccurrences, binds, reference?, children, occurrencesOfAll_eq] using List.perm_append_comm
  | objectLocal bind range =>
    obtain ⟨name, body, function, r⟩ := bind
    cases function <;>
      simp [occurrences, ownOccurrences, binds, reference?, children, Bind.child, Occurrence.ofBind]
  | field kind name body visibility plus method range =>
    cases method <;> simp [occurrences, ownOccurrences, binds, reference?, children]
  | localIn bs body range =>
    have hown : bs.map Occurrence.ofBind = bs.map fun b => ⟨.bind, b.name, b.range⟩ := rfl
    simp [occurrences, ownOccurrences, binds, reference?, children, occurrencesOfBinds_eq, hown]
  | _ =>
    simp [occurrences, ownOccurrences, binds, reference?, children, occurrencesOfAll_eq, occurrencesOfOption_eq,
      occurrencesOfParams_eq, occurrencesOfNamed_eq]

/-- A walk meets the occurrences of a tree, each as often as the tree has it. -/
theorem occurrences_perm_walk (n : Node) : n.occurrences.Perm (n.walk.flatMap ownOccurrences) := by
  induction n using Node.ind with
  | _ n ih =>
    rw [walk_eq, List.flatMap_cons, List.flatMap_assoc]
    refine (occurrences_perm_children n).trans (.append_left _ ?_)
    exact List.Perm.flatMap_left _ ih

/-- The two passes together meet the occurrences of a tree. -/
theorem occurrences_perm (n : Node) : n.occurrences.Perm (n.bindOccurrences ++ n.references) := by
  refine (occurrences_perm_walk n).trans ?_
  have href : n.references = n.walk.flatMap fun m => m.reference?.toList := by
    rw [references, List.filterMap_eq_flatMap_toList]
  rw [href, bindOccurrences]
  exact (List.flatMap_append_perm _ _ _).symm

/-! ## Shared bodies -/

def HasBody (f body : Node) : Prop := ∃ params range, f = .function params body range

/-- The body of each function bind and of each method of the tree is the body of its function. -/
structure SharesBodies (tree : Node) : Prop where
  binds : ∀ m b f, tree.Within m → b ∈ m.binds → b.function = some f → f.HasBody b.body
  methods : ∀ kind name body visibility plus f range,
    tree.Within (.field kind name body visibility plus (some f) range) → f.HasBody body

theorem SharesBodies.inField {n c : Node} (h : n.SharesBodies) (hc : c ∈ n.fields) : c.SharesBodies where
  binds m b f hm := h.binds m b f (.inField hc hm)
  methods kind name body visibility plus f range hm := h.methods kind name body visibility plus f range (.inField hc hm)

/-- A tree shares its bodies if the construct does and its fields do. -/
theorem SharesBodies.intro {n : Node} (hb : ∀ b ∈ n.binds, ∀ f, b.function = some f → f.HasBody b.body)
    (hm : ∀ kind name body visibility plus f range, n = .field kind name body visibility plus (some f) range → f.HasBody body)
    (hc : ∀ c ∈ n.fields, c.SharesBodies) : n.SharesBodies where
  binds m b f hw hmem hf := by
    cases hw with
    | here => exact hb b hmem f hf
    | inField hfield hw => exact (hc _ hfield).binds m b f hw hmem hf
  methods kind name body visibility plus f range hw := by
    generalize he : Node.field kind name body visibility plus (some f) range = m at hw
    cases hw with
    | here => exact hm _ _ _ _ _ _ _ he.symm
    | inField hfield hw => exact (hc _ hfield).methods kind name body visibility plus f range (he ▸ hw)

theorem child_mem_fields (b : Bind Node) : b.child ∈ b.fields := by
  obtain ⟨name, body, f, range⟩ := b
  cases f <;> simp [Bind.child, Bind.fields]

theorem mem_fields_of_mem_children {n c : Node} (h : c ∈ n.children) : c ∈ n.fields := by
  cases n with
  | function params body range =>
    simp only [children, fields, List.mem_append, List.mem_filterMap, List.mem_flatMap, Option.mem_toList] at h ⊢
    exact h
  | localIn binds body range =>
    simp only [children, fields, List.mem_append, List.mem_map, List.mem_flatMap] at h ⊢
    rcases h with ⟨b, hb, rfl⟩ | h
    · exact .inl ⟨b, hb, child_mem_fields b⟩
    · exact .inr h
  | objectLocal bind range =>
    obtain rfl := List.mem_singleton.mp h
    exact child_mem_fields bind
  | field kind name body visibility plus method range =>
    cases method with
    | none => exact h
    | some f =>
      rcases List.mem_pair.mp h with rfl | rfl <;> simp [fields]
  | objectComp members specs range =>
    simp only [children, fields, List.mem_append] at h ⊢
    exact h.symm
  | arrayComp body specs range =>
    simp only [children, fields, List.mem_append] at h ⊢
    exact h.symm
  | _ => exact h

theorem mem_walk_self (n : Node) : n ∈ n.walk := by
  rw [walk_eq]
  exact List.mem_cons_self

theorem mem_walk_of_child {n c m : Node} (hc : c ∈ n.children) (hm : m ∈ c.walk) : m ∈ n.walk := by
  rw [walk_eq]
  exact List.mem_cons_of_mem _ (List.mem_flatMap.mpr ⟨c, hc, hm⟩)

theorem within_of_mem_walk {n m : Node} (h : m ∈ n.walk) : n.Within m := by
  induction n using Node.ind with
  | _ n ih =>
    rw [walk_eq] at h
    rcases List.mem_cons.mp h with rfl | h
    · exact .here m
    · obtain ⟨c, hc, hm⟩ := List.mem_flatMap.mp h
      exact .inField (mem_fields_of_mem_children hc) (ih c hc hm)

/-- What a shared body leads to is met through the function. -/
theorem HasBody.mem_walk {f body m : Node} (h : f.HasBody body) (hm : m ∈ body.walk) : m ∈ f.walk := by
  obtain ⟨params, range, rfl⟩ := h
  exact mem_walk_of_child (by simp [children]) hm

/-- What a field of a bind leads to is met through the part that is walked. -/
theorem mem_walk_child {b : Bind Node} {c m : Node} (h : ∀ f, b.function = some f → f.HasBody b.body) (hc : c ∈ b.fields)
    (hm : m ∈ c.walk) : m ∈ b.child.walk := by
  obtain ⟨name, body, function, range⟩ := b
  cases function with
  | none =>
    obtain rfl : c = body := by simpa [Bind.fields] using hc
    exact hm
  | some f =>
    rcases List.mem_cons.mp hc with rfl | hc
    · exact (h f rfl).mem_walk hm
    · obtain rfl : c = f := by simpa using hc
      exact hm

/-- A walk meets whatever a field leads to. -/
theorem SharesBodies.mem_walk_of_field {n c m : Node} (h : n.SharesBodies) (hc : c ∈ n.fields) (hm : m ∈ c.walk) :
    m ∈ n.walk := by
  cases n with
  | function params body range =>
    refine mem_walk_of_child (c := c) ?_ hm
    simpa [children, fields] using hc
  | localIn bs body range =>
    rw [fields, List.mem_append, List.mem_flatMap] at hc
    rcases hc with ⟨b, hb, hc⟩ | hc
    · refine mem_walk_of_child (c := b.child) (by simp only [children, List.mem_append, List.mem_map]; exact .inl ⟨b, hb, rfl⟩) ?_
      exact mem_walk_child (fun f hf => h.binds _ b f (.here _) hb hf) hc hm
    · exact mem_walk_of_child (by rw [children]; exact List.mem_append_right _ hc) hm
  | objectLocal b range =>
    refine mem_walk_of_child (c := b.child) List.mem_cons_self ?_
    exact mem_walk_child (fun f hf => h.binds _ b f (.here _) List.mem_cons_self hf) hc hm
  | field kind name body visibility plus method range =>
    cases method with
    | none => exact mem_walk_of_child (by simpa [children, fields] using hc) hm
    | some f =>
      simp only [fields, List.cons_append, List.nil_append, Option.toList_some, List.mem_cons, List.not_mem_nil, or_false] at hc
      rcases hc with rfl | rfl | rfl
      · exact mem_walk_of_child List.mem_cons_self hm
      · refine mem_walk_of_child (c := f) (by simp [children]) ?_
        exact (h.methods _ _ _ _ _ f _ (.here _)).mem_walk hm
      · exact mem_walk_of_child (by simp [children]) hm
  | objectComp members specs range =>
    rw [fields, List.mem_append] at hc
    exact mem_walk_of_child (by rw [children, List.mem_append]; exact hc.symm) hm
  | arrayComp body specs range =>
    rw [fields, List.mem_append] at hc
    exact mem_walk_of_child (by rw [children, List.mem_append]; exact hc.symm) hm
  | _ => exact mem_walk_of_child hc hm

theorem SharesBodies.mem_walk_iff {n m : Node} (h : n.SharesBodies) : m ∈ n.walk ↔ n.Within m := by
  constructor
  · exact within_of_mem_walk
  · intro hm
    induction hm with
    | here n => exact mem_walk_self n
    | inField hc _ ih => exact h.mem_walk_of_field hc (ih (h.inField hc))

/-- The occurrences of a tree are those of everything within it. -/
theorem SharesBodies.mem_occurrences_iff {n : Node} {o : Occurrence} (h : n.SharesBodies) :
    o ∈ n.occurrences ↔ ∃ m, n.Within m ∧ o ∈ m.ownOccurrences := by
  rw [(occurrences_perm_walk n).mem_iff, List.mem_flatMap]
  simp only [h.mem_walk_iff]

end Node

end JsonnetLocals
