/-
  JsonnetLocals.Proofs.Rename.Capture — renaming without capture.

  Renaming goes by spelling and looks at no scope. Where parameters and the variables of `for` share
  no name with a bind, and no name that stays is spelled like a new one (`CaptureFree`), the new
  names tell the identifiers of a tree apart exactly as the old ones did (`CaptureFree.name_inj`).
  So whatever scopes the shape of the tree makes, a name that is looked up in them means the same
  binder as before, or still none (`rename_capture_free`).
-/

import JsonnetLocals.Proofs.Rename.Reparse

namespace JsonnetLocals

/-! ## Identifiers -/

inductive IdentifierKind where
  | bind
  | reference
  | parameter
  | element
  deriving DecidableEq, Repr

/-- A name of a tree that binds or refers. -/
structure Identifier where
  kind : IdentifierKind
  name : Text
  deriving DecidableEq

def Identifier.relabel (name binder : Text → Text) (i : Identifier) : Identifier :=
  match i.kind with
  | .bind | .reference => ⟨i.kind, name i.name⟩
  | .parameter | .element => ⟨i.kind, binder i.name⟩

namespace Node

def ownIdentifiers : Node → List Identifier
  | var n _ => [⟨.reference, n⟩]
  | function ps _ _ => ps.map fun p => ⟨.parameter, p.name⟩
  | forSpec n _ _ => [⟨.element, n⟩]
  | e => e.binds.map fun b => ⟨.bind, b.name⟩

/-- The identifiers of a tree, in the order of a walk. -/
def identifiers (e : Node) : List Identifier := e.walk.flatMap ownIdentifiers

def boundNames (e : Node) : List Text := e.bindOccurrences.map (·.name)

def nameAt (e : Node) (k : Nat) : Option Text := e.identifiers[k]?.map (·.name)

/-- The tree without its identifiers and places. -/
def shape (e : Node) : Node := e.relabel (fun _ => "") fun _ => ""

end Node

/-- The numbers of the identifiers that may bind an identifier, by the shape of the tree, nearest first. -/
abbrev Scoping := Node → Nat → List Nat

/-- What an identifier means: the first of its candidates that is spelled like it. -/
def Node.resolve (e : Node) (scoping : Scoping) (k : Nat) : Option Nat :=
  (scoping e.shape k).find? fun j => e.nameAt j == e.nameAt k

/-- No binder of a value has the name of a bind, and no name that stays is a new name. -/
structure CaptureFree (tree : Node) (tag : String) (separator : Text) : Prop where
  unbound : ∀ i ∈ tree.identifiers, i.kind = .parameter ∨ i.kind = .element → i.name ∉ tree.boundNames
  fresh : ∀ i ∈ tree.identifiers, i.name ∉ tree.boundNames → ∀ b ∈ tree.boundNames, i.name ≠ newName tag separator b

instance (tree : Node) (tag : String) (separator : Text) : Decidable (CaptureFree tree tag separator) :=
  decidable_of_iff
    ((∀ i ∈ tree.identifiers, i.kind = .parameter ∨ i.kind = .element → i.name ∉ tree.boundNames) ∧
      ∀ i ∈ tree.identifiers, i.name ∉ tree.boundNames → ∀ b ∈ tree.boundNames, i.name ≠ newName tag separator b)
    ⟨fun h => ⟨h.1, h.2⟩, fun h => ⟨h.unbound, h.fresh⟩⟩

/-! ## Identifiers under other names -/

section Relabel

variable (name binder : Text → Text)

theorem Node.ownIdentifiers_relabel (e : Node) :
    (e.relabel name binder).ownIdentifiers = e.ownIdentifiers.map (Identifier.relabel name binder) := by
  cases e with
  | function ps e => simp [relabel, ownIdentifiers, Identifier.relabel, Param.relabel]
  | localIn bs e => simp [relabel, ownIdentifiers, binds, Identifier.relabel, Bind.relabel]
  | objectLocal b => simp [relabel, ownIdentifiers, binds, Identifier.relabel]
  | _ => rfl

theorem Node.identifiers_relabel (e : Node) :
    (e.relabel name binder).identifiers = e.identifiers.map (Identifier.relabel name binder) := by
  unfold identifiers
  rw [walk_relabel, List.flatMap_map, List.map_flatMap]
  exact List.flatMap_congr fun c _ => ownIdentifiers_relabel name binder c

theorem Node.shape_relabel (e : Node) : (e.relabel name binder).shape = e.shape := relabel_relabel ..

end Relabel

theorem Identifier.relabel_id (i : Identifier) : i.relabel id id = i := by
  obtain ⟨kind, n⟩ := i
  cases kind <;> rfl

/-! ## New names -/

theorem newName_injective {tag : String} {separator a b : Text} (h : newName tag separator a = newName tag separator b) :
    a = b := by
  have hcodes : tag.toList.map Char.toNat ++ separator.codes ++ a.codes =
      tag.toList.map Char.toNat ++ separator.codes ++ b.codes := congrArg Text.codes h
  cases a
  cases b
  exact congrArg Text.mk (List.append_cancel_left hcodes)

/-- The name that stands for `n` when the names of a list are renamed. -/
def renamedBy (tag : String) (separator : Text) (names : List Text) (n : Text) : Text :=
  if names.contains n then newName tag separator n else n

section Names

variable {tree tree' : Node} {tag : String} {separator : Text} {names : List Text}

theorem renamedBy_of_mem {n : Text} (h : n ∈ names) : renamedBy tag separator names n = newName tag separator n :=
  if_pos (List.contains_iff_mem.mpr h)

theorem renamedBy_of_not_mem {n : Text} (h : n ∉ names) : renamedBy tag separator names n = n :=
  if_neg fun hc => h (List.contains_iff_mem.mp hc)

/-- Parameters and the variables of `for` are renamed like all others, since their names stay. -/
theorem CaptureFree.relabel_eq (h : CaptureFree tree tag separator) (hn : ∀ n, n ∈ names ↔ n ∈ tree.boundNames)
    {i : Identifier} (hi : i ∈ tree.identifiers) :
    i.relabel (renamedBy tag separator names) id = ⟨i.kind, renamedBy tag separator names i.name⟩ := by
  have hstays (hk : i.kind = .parameter ∨ i.kind = .element) : renamedBy tag separator names i.name = i.name :=
    renamedBy_of_not_mem fun hmem => h.unbound i hi hk ((hn _).mp hmem)
  unfold Identifier.relabel
  split
  · rfl
  · rfl
  · rename_i hk
    rw [hstays (.inl hk), id]
  · rename_i hk
    rw [hstays (.inr hk), id]

/-- Identifiers that get one new name had one name before. -/
theorem CaptureFree.name_inj (h : CaptureFree tree tag separator) (hn : ∀ n, n ∈ names ↔ n ∈ tree.boundNames)
    {i j : Identifier} (hi : i ∈ tree.identifiers) (hj : j ∈ tree.identifiers)
    (heq : renamedBy tag separator names i.name = renamedBy tag separator names j.name) : i.name = j.name := by
  by_cases hbi : i.name ∈ names
  · by_cases hbj : j.name ∈ names
    · rw [renamedBy_of_mem hbi, renamedBy_of_mem hbj] at heq
      exact newName_injective heq
    · rw [renamedBy_of_mem hbi, renamedBy_of_not_mem hbj] at heq
      exact absurd heq.symm (h.fresh j hj (fun hb => hbj ((hn _).mpr hb)) i.name ((hn _).mp hbi))
  · by_cases hbj : j.name ∈ names
    · rw [renamedBy_of_not_mem hbi, renamedBy_of_mem hbj] at heq
      exact absurd heq (h.fresh i hi (fun hb => hbi ((hn _).mpr hb)) j.name ((hn _).mp hbj))
    · rwa [renamedBy_of_not_mem hbi, renamedBy_of_not_mem hbj] at heq

/-- The identifiers of the tree that is read from the code. -/
theorem CaptureFree.identifiers_eq (h : CaptureFree tree tag separator) (hn : ∀ n, n ∈ names ↔ n ∈ tree.boundNames)
    (ht : tree'.relabel id id = tree.relabel (renamedBy tag separator names) id) :
    tree'.identifiers = tree.identifiers.map fun i => ⟨i.kind, renamedBy tag separator names i.name⟩ := by
  calc tree'.identifiers
      = (tree'.relabel id id).identifiers := by
        rw [Node.identifiers_relabel, List.map_congr_left fun i _ => i.relabel_id, List.map_id']
    _ = tree.identifiers.map (Identifier.relabel (renamedBy tag separator names) id) := by
        rw [ht, Node.identifiers_relabel]
    _ = tree.identifiers.map fun i => ⟨i.kind, renamedBy tag separator names i.name⟩ :=
        List.map_congr_left fun i hi => h.relabel_eq hn hi

theorem CaptureFree.nameAt_eq_iff (h : CaptureFree tree tag separator) (hn : ∀ n, n ∈ names ↔ n ∈ tree.boundNames)
    (ht : tree'.relabel id id = tree.relabel (renamedBy tag separator names) id) (j k : Nat) :
    tree'.nameAt j = tree'.nameAt k ↔ tree.nameAt j = tree.nameAt k := by
  unfold Node.nameAt
  rw [h.identifiers_eq hn ht, List.getElem?_map, List.getElem?_map]
  cases hj : tree.identifiers[j]? with
  | none => cases tree.identifiers[k]? <;> simp
  | some i =>
    cases hk : tree.identifiers[k]? with
    | none => simp
    | some i' =>
      simp only [Option.map_some, Option.some.injEq]
      exact ⟨h.name_inj hn (List.mem_of_getElem? hj) (List.mem_of_getElem? hk), congrArg _⟩

end Names

/-- What an identifier means depends on the shape of the tree and on which names are equal. -/
theorem Node.resolve_congr {e e' : Node} (hs : e'.shape = e.shape)
    (hn : ∀ j k, e'.nameAt j = e'.nameAt k ↔ e.nameAt j = e.nameAt k) (scoping : Scoping) (k : Nat) :
    e'.resolve scoping k = e.resolve scoping k := by
  have htest : (fun j => e'.nameAt j == e'.nameAt k) = fun j => e.nameAt j == e.nameAt k := by
    funext j
    rw [Bool.eq_iff_iff, beq_iff_eq, beq_iff_eq, hn j k]
  rw [resolve, resolve, hs, htest]

/-- Outside of capture, the identifiers of the code are spelled alike exactly where those of the text
    are, and each of them means what it meant under every rule of scope. -/
theorem rename_capture_free {file : Text} {source : Bytes} {tree : Node} {identity separator : Text} {tag : String}
    {text : List Char} (hp : parse file source = .ok tree) (hd : Utf8.decode source = .ok text)
    (hf : DriftFree (words file text)) (ht : fileTag identity = .ok tag)
    (hs : separator.chars.all isSeparatorChar = true) (hc : CaptureFree tree tag separator) (file' : Text) :
    ∃ renamed tree',
      renameLocals tree source identity separator = ([], .ok renamed) ∧
      parse file' renamed.code = .ok tree' ∧
      tree'.shape = tree.shape ∧
      tree'.identifiers.map (·.kind) = tree.identifiers.map (·.kind) ∧
      (∀ j k, tree'.nameAt j = tree'.nameAt k ↔ tree.nameAt j = tree.nameAt k) ∧
      ∀ scoping k, tree'.resolve scoping k = tree.resolve scoping k := by
  obtain ⟨text', hd', _, hr⟩ := exists_parsed hp
  obtain rfl : text' = text := Except.ok.inj (hd'.symm.trans hd)
  obtain ⟨renamed, tree', heq, hnames, hp', htree⟩ := hr.exists_reparsed hf ht hs file'
  have hn (n : Text) : n ∈ renamed.names ↔ n ∈ tree.boundNames := by
    rw [hnames n, Node.boundNames, List.mem_map]
  have hshape : tree'.shape = tree.shape := by
    rw [← tree'.shape_relabel id id, htree, Node.shape_relabel]
  have hspelled := hc.nameAt_eq_iff hn htree
  refine ⟨renamed, tree', heq, hp', hshape, ?_, hspelled, Node.resolve_congr hshape hspelled⟩
  rw [hc.identifiers_eq hn htree, List.map_map]
  rfl

/-- A value and a function, a parameter and a variable of `for`. -/
theorem rename_capture_free_function :
    ∃ tree, parse "" (Utf8.encode "local x=1,f(y)=x+y;[f(z)for z in[x]]") = .ok tree ∧ CaptureFree tree "_e40c292c" "_" ∧
      ∃ renamed tree',
        renameLocals tree (Utf8.encode "local x=1,f(y)=x+y;[f(z)for z in[x]]") "a" "_" = ([], .ok renamed) ∧
        parse "" renamed.code = .ok tree' ∧
        tree'.shape = tree.shape ∧
        tree'.identifiers.map (·.kind) = tree.identifiers.map (·.kind) ∧
        (∀ j k, tree'.nameAt j = tree'.nameAt k ↔ tree.nameAt j = tree.nameAt k) ∧
        ∀ scoping k, tree'.resolve scoping k = tree.resolve scoping k := by
  obtain ⟨tree, hp⟩ : ∃ tree, parse "" (Utf8.encode "local x=1,f(y)=x+y;[f(z)for z in[x]]") = .ok tree :=
    exists_tree (by decide +kernel)
  have hc : (parse "" (Utf8.encode "local x=1,f(y)=x+y;[f(z)for z in[x]]")).toOption.all
      (fun e => decide (CaptureFree e "_e40c292c" "_")) = true := by decide +kernel
  rw [hp] at hc
  have hfree : CaptureFree tree "_e40c292c" "_" := of_decide_eq_true hc
  exact ⟨tree, hp, hfree, rename_capture_free hp (Utf8.decode_encodeChars _) (by decide +kernel)
    (show fileTag "a" = .ok "_e40c292c" by decide +kernel) (show (Text.chars "_").all isSeparatorChar = true by decide +kernel)
    hfree ""⟩

end JsonnetLocals
