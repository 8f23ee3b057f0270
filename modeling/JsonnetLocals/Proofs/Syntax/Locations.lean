/-
  JsonnetLocals.Proofs.Syntax.Locations — the ranges of a tree that was read.

  A construct's range runs from the first to the last of the words that it was read from
  (`Range.Over`), and the ranges of its parts from and to words among these (`Derives.spans`, by induction over
  the derivation, which knows nothing of the order of the words). The words of a text stand one after
  another, so all these ranges are in the text and one in the other. `locations_faithful` says
  so of every construct of the tree, and that names and literals have the ranges of their tokens.
-/

import JsonnetLocals.Proofs.Syntax.Sound
import JsonnetLocals.Proofs.Text.Encoding

namespace JsonnetLocals

/-! ## Places in a text -/

instance : LE Position where
  le a b := a.line < b.line ∨ a.line = b.line ∧ a.column ≤ b.column

theorem Position.le_iff {a b : Position} : a ≤ b ↔ a.line < b.line ∨ a.line = b.line ∧ a.column ≤ b.column := Iff.rfl

theorem Position.le_rfl {a : Position} : a ≤ a := Or.inr ⟨rfl, Int.le_refl _⟩

theorem Position.le_trans {a b c : Position} (h1 : a ≤ b) (h2 : b ≤ c) : a ≤ c := by
  rw [le_iff] at h1 h2 ⊢
  omega

theorem Position.le_step (p : Position) (c : Char) : p ≤ p.step c := by
  rw [le_iff, step]
  split
  · left
    show p.line < p.line + 1
    omega
  · right
    show p.line = p.line ∧ p.column ≤ p.column + 1
    omega

theorem Position.le_advance (p : Position) (cs : List Char) : p ≤ p.advance cs := by
  induction cs generalizing p with
  | nil => exact le_rfl
  | cons c cs ih => exact le_trans (le_step p c) (ih (p.step c))

theorem placeAfter_le (cs ds : List Char) : placeAfter cs ≤ placeAfter (cs ++ ds) := by
  rw [placeAfter_append]
  exact Position.le_advance _ ds

theorem Position.not_step_le (p : Position) (c : Char) : ¬p.step c ≤ p := by
  rw [le_iff, step]
  split
  · show ¬(p.line + 1 < p.line ∨ p.line + 1 = p.line ∧ 1 ≤ p.column)
    omega
  · show ¬(p.line < p.line ∨ p.line = p.line ∧ p.column + 1 ≤ p.column)
    omega

/-- Different fronts of a text end at different places. -/
theorem eq_nil_of_placeAfter_eq {cs ds : List Char} (h : placeAfter (cs ++ ds) = placeAfter cs) : ds = [] := by
  cases ds with
  | nil => rfl
  | cons d ds =>
    have hle : (placeAfter cs).step d ≤ placeAfter (cs ++ d :: ds) := by
      rw [placeAfter_append]
      exact Position.le_advance _ ds
    rw [h] at hle
    exact absurd hle (Position.not_step_le _ d)

theorem eq_of_placeAfter_eq {cs ds xs ys : List Char} (happend : cs ++ xs = ds ++ ys) (h : placeAfter cs = placeAfter ds) :
    cs = ds := by
  rcases List.append_eq_append_iff.mp happend with ⟨zs, rfl, _⟩ | ⟨zs, rfl, _⟩
  · rw [eq_nil_of_placeAfter_eq h.symm, List.append_nil]
  · rw [eq_nil_of_placeAfter_eq h, List.append_nil]

namespace Range

/-- The range is that of the piece of the text behind some of it. -/
def Covers (r : Range) (text piece : List Char) : Prop :=
  ∃ before after, text = before ++ piece ++ after ∧ r.start = placeAfter before ∧ r.stop = placeAfter (before ++ piece)

/-- The range has a place, does not end before it begins, and is that of a piece of the text. -/
structure Inside (text : List Char) (r : Range) : Prop where
  isSet : r.isSet = true
  ordered : r.start ≤ r.stop
  covers : ∃ piece, r.Covers text piece

def Contains (r q : Range) : Prop := r.start ≤ q.start ∧ q.stop ≤ r.stop

theorem line_placeAfter_pos (cs : List Char) : 0 < (placeAfter cs).line := by
  have h := Position.le_advance .origin cs
  have hline : Position.origin.line = 1 := rfl
  rw [Position.le_iff, hline] at h
  show 0 < (Position.origin.advance cs).line
  omega

theorem Covers.inside {r : Range} {text piece : List Char} (h : r.Covers text piece) : r.Inside text := by
  obtain ⟨before, after, htext, hstart, hstop⟩ := h
  refine ⟨?_, ?_, piece, before, after, htext, hstart, hstop⟩
  · have := line_placeAfter_pos before
    rw [isSet, hstart]
    simp only [bne_iff_ne]
    omega
  · rw [hstart, hstop]
    exact placeAfter_le before piece

/-- The text between the ends of a range is one. -/
theorem Covers.unique {r : Range} {text p q : List Char} (hp : r.Covers text p) (hq : r.Covers text q) : p = q := by
  obtain ⟨before, after, htext, hstart, hstop⟩ := hp
  obtain ⟨before', after', htext', hstart', hstop'⟩ := hq
  rw [htext] at htext'
  have hends : before ++ p = before' ++ q := eq_of_placeAfter_eq htext' (hstop.symm.trans hstop')
  obtain rfl : before = before' := eq_of_placeAfter_eq hends (hstart.symm.trans hstart')
  exact List.append_cancel_left hends

/-! ## Ranges of words -/

def BeginsWith (r : Range) (ts : List Word) : Prop := ∃ w, ts.head? = some w ∧ r.start = w.range.start

def EndsWith (r : Range) (ts : List Word) : Prop := ∃ w, ts.getLast? = some w ∧ r.stop = w.range.stop

/-- The range runs from the first to the last of the words. -/
def Over (r : Range) (ts : List Word) : Prop := r.BeginsWith ts ∧ r.EndsWith ts

theorem beginsWith_cons (w : Word) (ts : List Word) : w.range.BeginsWith (w :: ts) := ⟨w, rfl, rfl⟩

theorem BeginsWith.append {r : Range} {ts : List Word} (h : r.BeginsWith ts) (us : List Word) : r.BeginsWith (ts ++ us) := by
  obtain ⟨w, hw, hstart⟩ := h
  refine ⟨w, ?_, hstart⟩
  rw [List.head?_append, hw]
  rfl

theorem endsWith_word (w : Word) : w.range.EndsWith [w] := ⟨w, rfl, rfl⟩

theorem EndsWith.append {r : Range} {us : List Word} (h : r.EndsWith us) (ts : List Word) : r.EndsWith (ts ++ us) := by
  obtain ⟨w, hw, hstop⟩ := h
  refine ⟨w, ?_, hstop⟩
  rw [List.getLast?_append, hw]
  rfl

theorem EndsWith.cons {r : Range} {ts : List Word} (h : r.EndsWith ts) (w : Word) : r.EndsWith (w :: ts) := h.append [w]

/-- From the range that begins the words to the one that ends them. -/
theorem over_upTo {a b : Range} {ts : List Word} (ha : a.BeginsWith ts) (hb : b.EndsWith ts) : (a.upTo b).Over ts := ⟨ha, hb⟩

/-- The range begins and ends with words among these, in their order. -/
def Among (r : Range) (ts : List Word) : Prop := ∃ us, us.Sublist ts ∧ r.Over us

theorem Among.mono {r : Range} {us ts : List Word} (h : r.Among us) (hs : us.Sublist ts) : r.Among ts := by
  obtain ⟨vs, hvs, ho⟩ := h
  exact ⟨vs, hvs.trans hs, ho⟩

theorem over_word (w : Word) : w.range.Over [w] := ⟨⟨w, rfl, rfl⟩, ⟨w, rfl, rfl⟩⟩

end Range

/-! ## What a construct says of its words -/

def Word.Spells (w : Word) (name : Text) : Prop := w.token.terminal = .name ∧ name = w.spelling

/-- The range begins with a name among the words, which is this one. -/
def NamedBy (name : Text) (r : Range) (ts : List Word) : Prop :=
  r.Among ts ∧ ∃ w ∈ ts, w.Spells name ∧ r.start = w.range.start

/-- The literal `value` of the kind was read from the word: a string, or the name of a field. -/
def Word.SpellsString (w : Word) (value : Text) (kind : StringKind) : Prop :=
  (StringKind.ofTerminal w.token.terminal = some kind ∧
      ∃ cs, Literal.stringValue kind w.text w.range.start = .ok cs ∧ value = .ofChars cs) ∨
    (w.Spells value ∧ kind = .double)

namespace Node

/-- The names that the construct itself introduces, and the literal or variable that it is, are
    among the words. -/
def Reads (ts : List Word) : Node → Prop
  | .var name range => ∃ w ∈ ts, range = w.range ∧ w.Spells name
  | .string value kind range => ∃ w ∈ ts, range = w.range ∧ w.SpellsString value kind
  | .number value spelling range =>
    ∃ w ∈ ts, range = w.range ∧ w.token.terminal = .number ∧ spelling = w.spelling ∧ value = Literal.numberValue w.text
  | .function params _ _ => ∀ p ∈ params, NamedBy p.name p.range ts
  | .localIn binds _ _ => ∀ b ∈ binds, NamedBy b.name b.range ts
  | .objectLocal bind _ => NamedBy bind.name bind.range ts
  | _ => True

/-- The construct was read from the words, and its parts from some of them. -/
structure SitsIn (ts : List Word) (n : Node) : Prop where
  range : n.range.Over ts
  children : ∀ c ∈ n.children, c.range.Among ts
  reads : n.Reads ts

def AllSit (ts : List Word) (e : Node) : Prop := ∀ n ∈ e.walk, ∃ us, us.Sublist ts ∧ n.SitsIn us

theorem AllSit.mono {e : Node} {us ts : List Word} (h : e.AllSit us) (hs : us.Sublist ts) : e.AllSit ts := by
  intro n hn
  obtain ⟨vs, hvs, hsits⟩ := h n hn
  exact ⟨vs, hvs.trans hs, hsits⟩

/-- The tree was read from some of the words. -/
def PartOf (ts : List Word) (e : Node) : Prop := ∃ us, us.Sublist ts ∧ e.range.Over us ∧ e.AllSit us

theorem PartOf.mono {e : Node} {us ts : List Word} (h : e.PartOf us) (hs : us.Sublist ts) : e.PartOf ts := by
  obtain ⟨vs, hvs, he⟩ := h
  exact ⟨vs, hvs.trans hs, he⟩

/-- The tree was read from the words, all of them. -/
def Spans (ts : List Word) (e : Node) : Prop := e.range.Over ts ∧ e.AllSit ts

theorem Spans.partOf {e : Node} {us ts : List Word} (h : e.Spans us) (hs : us.Sublist ts) : e.PartOf ts := ⟨us, hs, h⟩

/-- A construct whose parts were read from some of the words. -/
theorem spans_of_parts {n : Node} {ts : List Word} (hr : n.range.Over ts) (hc : ∀ c ∈ n.children, c.PartOf ts)
    (hreads : n.Reads ts) : n.Spans ts := by
  refine ⟨hr, ?_⟩
  intro m hm
  rw [walk_eq] at hm
  rcases List.mem_cons.mp hm with rfl | hm
  · refine ⟨ts, .refl ts, hr, ?_, hreads⟩
    intro c hc'
    obtain ⟨us, hus, hover, _⟩ := hc c hc'
    exact ⟨us, hus, hover⟩
  · obtain ⟨c, hc', hm⟩ := List.mem_flatMap.mp hm
    obtain ⟨us, hus, _, hall⟩ := hc c hc'
    exact hall.mono hus m hm

theorem spans_of_leaf {n : Node} {ts : List Word} (hr : n.range.Over ts) (hc : n.children = []) (hreads : n.Reads ts) :
    n.Spans ts := spans_of_parts hr (hc ▸ List.forall_mem_nil _) hreads

end Node

/-! ## Phrases -/

structure Bind.Spans (ts : List Word) (b : Bind Node) : Prop where
  range : b.range.Over ts
  named : NamedBy b.name b.range ts
  child : b.child.PartOf ts

structure Param.PartOf (ts : List Word) (p : Param Node) : Prop where
  named : NamedBy p.name p.range ts
  value : ∀ e, p.value = some e → e.PartOf ts

theorem NamedBy.mono {name : Text} {r : Range} {us ts : List Word} (h : NamedBy name r us) (hs : us.Sublist ts) :
    NamedBy name r ts := by
  obtain ⟨hr, w, hw, hname⟩ := h
  exact ⟨hr.mono hs, w, hs.subset hw, hname⟩

theorem Param.PartOf.mono {p : Param Node} {us ts : List Word} (h : p.PartOf us) (hs : us.Sublist ts) : p.PartOf ts :=
  ⟨h.named.mono hs, fun e he => (h.value e he).mono hs⟩

mutual

def Phrase.Spans (ts : List Word) : Phrase → Prop
  | .expr _ e | .string e | .object e | .member e | .spec e => e.Spans ts
  | .opt o => ∀ e, o = some e → e.Spans ts
  | .call e => e.Spans ts ∧ ∀ c ∈ e.children, c.PartOf ts
  | .bind b => b.Spans ts
  | .param p => p.PartOf ts
  | .params ps => ∀ p ∈ ps, p.PartOf ts
  | .arg (.positional e) => e.PartOf ts
  | .arg (.named a) => a.value.PartOf ts
  | .fieldName opening _ name => opening.BeginsWith ts ∧ name.PartOf ts
  | .specs ss => ∀ s ∈ ss, s.PartOf ts
  | .seq ps | .items ps => Phrase.AllAmong ts ps

def Phrase.AllAmong (ts : List Word) : List Phrase → Prop
  | [] => True
  | p :: ps => (∃ us, us.Sublist ts ∧ p.Spans us) ∧ Phrase.AllAmong ts ps

end

theorem Phrase.allAmong_iff {ts : List Word} {ps : List Phrase} :
    Phrase.AllAmong ts ps ↔ ∀ p ∈ ps, ∃ us, us.Sublist ts ∧ p.Spans us := by
  induction ps with
  | nil => simp [Phrase.AllAmong]
  | cons p ps ih => rw [Phrase.AllAmong, ih, List.forall_mem_cons]

theorem Phrase.allAmong_map {α : Type} {f : α → Phrase} {xs : List α} {ts : List Word}
    (h : Phrase.AllAmong ts (xs.map f)) : ∀ x ∈ xs, ∃ us, us.Sublist ts ∧ (f x).Spans us := by
  intro x hx
  exact Phrase.allAmong_iff.mp h (f x) (List.mem_map_of_mem hx)

/-- Each list of phrases that a construct holds gives its parts. -/
theorem Phrase.AllAmong.partOf {xs : List Node} {f : Node → Phrase} {us ts : List Word}
    (h : Phrase.AllAmong us (xs.map f)) (hs : us.Sublist ts) (hf : ∀ x vs, (f x).Spans vs → x.Spans vs) :
    ∀ x ∈ xs, x.PartOf ts := by
  intro x hx
  obtain ⟨vs, hvs, hspans⟩ := Phrase.allAmong_map h x hx
  exact (hf x vs hspans).partOf (hvs.trans hs)

theorem Phrase.AllAmong.mono {ps : List Phrase} {us ts : List Word} (h : Phrase.AllAmong us ps) (hs : us.Sublist ts) :
    Phrase.AllAmong ts ps := by
  rw [Phrase.allAmong_iff] at h ⊢
  intro p hp
  obtain ⟨vs, hvs, hspans⟩ := h p hp
  exact ⟨vs, hvs.trans hs, hspans⟩

theorem Word.Spells.namedBy {w : Word} {name : Text} {r : Range} {ts us : List Word} (h : w.Spells name) (hr : r.Over us)
    (hs : us.Sublist ts) (hhead : us.head? = some w) : NamedBy name r ts := by
  obtain ⟨v, hv, hstart⟩ := hr.1
  obtain rfl : v = w := Option.some.inj (hv.symm.trans hhead)
  exact ⟨⟨us, hs, hr⟩, v, hs.subset (List.mem_of_head? hv), h, hstart⟩

/-! ## Productions

One lemma for each production, or for several of one shape: a construct spans its words when its
parts span theirs. -/

open Range (over_upTo beginsWith_cons endsWith_word)

variable {ts us vs xs : List Word} {w v x y : Word}

namespace Node.Spans

variable {c e i l m n o r : Node} {a b d : Option Node} {q : Range}

theorem partOf_option (h : ∀ e, a = some e → e.Spans us) (hs : us.Sublist ts) : ∀ c ∈ a.toList, c.PartOf ts := by
  intro c hc
  exact (h c (Option.mem_toList.mp hc)).partOf hs

/-- A construct that is one word. -/
theorem word (hr : n.range = w.range) (hc : n.children = []) (hreads : n.Reads [w]) : n.Spans [w] :=
  spans_of_leaf (hr ▸ Range.over_word w) hc hreads

/-- A construct whose only part stands behind its first word. -/
theorem prefixed (he : e.Spans ts) (hr : n.range = w.range.upTo e.range) (hc : n.children = [e])
    (hreads : n.Reads (w :: ts)) : n.Spans (w :: ts) := by
  refine spans_of_parts (hr ▸ over_upTo (beginsWith_cons w ts) (he.1.2.cons w)) ?_ hreads
  rw [hc, List.forall_mem_singleton]
  exact he.partOf (List.sublist_cons_self w ts)

/-- A construct whose parts stand between its first word and its last. -/
theorem bracketed (hc : ∀ c ∈ n.children, c.PartOf ts) (hr : n.range = w.range.upTo v.range)
    (hreads : n.Reads (w :: ts ++ [v])) : n.Spans (w :: ts ++ [v]) := by
  refine spans_of_parts (hr ▸ over_upTo (beginsWith_cons w _) ((endsWith_word v).append _)) ?_ hreads
  intro c hm
  exact (hc c hm).mono (by grind)

/-! ### Operators and the forms that start with a keyword -/

theorem binary {op : BinaryOp} (hl : l.Spans ts) (hr : r.Spans us) :
    (Node.binary l op r (l.range.upTo r.range)).Spans (ts ++ w :: us) := by
  refine spans_of_parts (over_upTo (hl.1.1.append _) ((hr.1.2.cons w).append ts)) ?_ trivial
  simp only [Node.children, List.forall_mem_cons]
  exact ⟨hl.partOf (by grind), hr.partOf (by grind), List.forall_mem_nil _⟩

theorem inSuper (hl : l.Spans ts) : (Node.inSuper l (l.range.upTo v.range)).Spans (ts ++ [w, v]) := by
  refine spans_of_parts (over_upTo (hl.1.1.append _) (((endsWith_word v).cons w).append ts)) ?_ trivial
  simp only [Node.children, List.forall_mem_singleton]
  exact hl.partOf (by grind)

theorem localIn {bs : List (Bind Node)} (hbs : ∀ b ∈ bs, ∃ vs, vs.Sublist ts ∧ Bind.Spans vs b) (he : e.Spans us) :
    (Node.localIn bs e (w.range.upTo e.range)).Spans (w :: ts ++ v :: us) := by
  have hin : ∀ b ∈ bs, b.child.PartOf (w :: ts ++ v :: us) ∧ NamedBy b.name b.range (w :: ts ++ v :: us) := by
    intro b hb
    obtain ⟨vs, hvs, hspans⟩ := hbs b hb
    have hsub : vs.Sublist (w :: ts ++ v :: us) := hvs.trans (by grind)
    exact ⟨hspans.child.mono hsub, hspans.named.mono hsub⟩
  refine spans_of_parts (over_upTo (beginsWith_cons w _) ((he.1.2.cons v).append _)) ?_ fun b hb => (hin b hb).2
  simp only [Node.children, List.forall_mem_append, List.forall_mem_map, List.forall_mem_singleton]
  exact ⟨fun b hb => (hin b hb).1, he.partOf (by grind)⟩

theorem ifThen (hc : c.Spans ts) (he : e.Spans us) :
    (Node.conditional c e none (w.range.upTo e.range)).Spans (w :: ts ++ v :: us) := by
  refine spans_of_parts (over_upTo (beginsWith_cons w _) ((he.1.2.cons v).append _)) ?_ trivial
  simp only [Node.children, Option.toList_none, List.forall_mem_cons]
  exact ⟨hc.partOf (by grind), he.partOf (by grind), List.forall_mem_nil _⟩

theorem ifThenElse (hc : c.Spans ts) (hm : m.Spans us) (he : e.Spans vs) :
    (Node.conditional c m (some e) (w.range.upTo e.range)).Spans (w :: ts ++ v :: us ++ x :: vs) := by
  refine spans_of_parts (over_upTo (beginsWith_cons w _) ((he.1.2.cons x).append _)) ?_ trivial
  simp only [Node.children, Option.toList_some, List.forall_mem_cons]
  exact ⟨hc.partOf (by grind), hm.partOf (by grind), he.partOf (by grind), List.forall_mem_nil _⟩

/-- A function takes the range of what it belongs to. -/
theorem function {ps : List (Param Node)} (hq : q.Over ts) (hps : ∀ p ∈ ps, p.PartOf ts) (he : e.PartOf ts) :
    (Node.function ps e q).Spans ts := by
  refine spans_of_parts hq ?_ fun p hp => (hps p hp).named
  simp only [Node.children, List.forall_mem_append, List.mem_filterMap, List.mem_singleton, forall_eq]
  refine ⟨?_, he⟩
  rintro c ⟨p, hp, hc⟩
  exact (hps p hp).value c hc

theorem assertion (hc : c.Spans ts) (he : e.Spans us) :
    (Node.assertion c none e (w.range.upTo e.range)).Spans (w :: ts ++ v :: us) := by
  refine spans_of_parts (over_upTo (beginsWith_cons w _) ((he.1.2.cons v).append _)) ?_ trivial
  simp only [Node.children, Option.toList_none, List.forall_mem_cons, List.forall_mem_append]
  exact ⟨⟨hc.partOf (by grind), List.forall_mem_nil _⟩, he.partOf (by grind), List.forall_mem_nil _⟩

theorem assertionMessage (hc : c.Spans ts) (hm : m.Spans us) (he : e.Spans vs) :
    (Node.assertion c (some m) e (w.range.upTo e.range)).Spans (w :: ts ++ v :: us ++ x :: vs) := by
  refine spans_of_parts (over_upTo (beginsWith_cons w _) ((he.1.2.cons x).append _)) ?_ trivial
  simp only [Node.children, Option.toList_some, List.forall_mem_cons, List.forall_mem_append]
  exact ⟨⟨hc.partOf (by grind), hm.partOf (by grind), List.forall_mem_nil _⟩, he.partOf (by grind), List.forall_mem_nil _⟩

/-! ### Suffixes -/

theorem fieldAccess {f : Option Text} (he : e.Spans ts) :
    (Node.index e none f (e.range.upTo v.range)).Spans (ts ++ [w, v]) := by
  refine spans_of_parts (over_upTo (he.1.1.append _) (((endsWith_word v).cons w).append ts)) ?_ trivial
  simp only [Node.children, Option.toList_none, List.forall_mem_cons]
  exact ⟨he.partOf (by grind), List.forall_mem_nil _⟩

theorem index (he : e.Spans ts) (hi : i.Spans us) :
    (Node.index e (some i) none (e.range.upTo v.range)).Spans (ts ++ w :: us ++ [v]) := by
  refine spans_of_parts (over_upTo ((he.1.1.append _).append _) ((endsWith_word v).append _)) ?_ trivial
  simp only [Node.children, Option.toList_some, List.forall_mem_cons]
  exact ⟨he.partOf (by grind), hi.partOf (by grind), List.forall_mem_nil _⟩

theorem slice (he : e.Spans ts) (ha : ∀ n, a = some n → n.Spans us) (hb : ∀ n, b = some n → n.Spans vs) :
    (Node.slice e a b none (e.range.upTo v.range)).Spans (ts ++ w :: us ++ x :: vs ++ [v]) := by
  refine spans_of_parts (over_upTo (((he.1.1.append _).append _).append _) ((endsWith_word v).append _)) ?_ trivial
  simp only [Node.children, Option.toList_none, List.forall_mem_cons, List.forall_mem_append]
  exact ⟨⟨⟨he.partOf (by grind), partOf_option ha (by grind)⟩, partOf_option hb (by grind)⟩, List.forall_mem_nil _⟩

theorem sliceStep (he : e.Spans ts) (ha : ∀ n, a = some n → n.Spans us) (hb : ∀ n, b = some n → n.Spans vs)
    (hd : ∀ n, d = some n → n.Spans xs) :
    (Node.slice e a b d (e.range.upTo v.range)).Spans (ts ++ w :: us ++ x :: vs ++ y :: xs ++ [v]) := by
  refine spans_of_parts (over_upTo ((((he.1.1.append _).append _).append _).append _) ((endsWith_word v).append _)) ?_ trivial
  simp only [Node.children, List.forall_mem_cons, List.forall_mem_append]
  have hopen : (ts ++ w :: us ++ x :: vs).Sublist (ts ++ w :: us ++ x :: vs ++ y :: xs ++ [v]) := by grind
  have hus : us.Sublist (ts ++ w :: us ++ x :: vs) := by grind
  have hvs : vs.Sublist (ts ++ w :: us ++ x :: vs) := by grind
  exact ⟨⟨⟨he.partOf (by grind), partOf_option ha (hus.trans hopen)⟩, partOf_option hb (hvs.trans hopen)⟩,
    partOf_option hd (by grind)⟩

theorem sliceNoStop (he : e.Spans ts) (ha : ∀ n, a = some n → n.Spans us) (hd : ∀ n, d = some n → n.Spans xs) :
    (Node.slice e a none d (e.range.upTo v.range)).Spans (ts ++ w :: us ++ x :: xs ++ [v]) := by
  refine spans_of_parts (over_upTo (((he.1.1.append _).append _).append _) ((endsWith_word v).append _)) ?_ trivial
  simp only [Node.children, Option.toList_none, List.forall_mem_cons, List.forall_mem_append]
  exact ⟨⟨⟨he.partOf (by grind), partOf_option ha (by grind)⟩, List.forall_mem_nil _⟩, partOf_option hd (by grind)⟩

/-- The parts of a call among its words. -/
theorem arguments {ps : List Node} {ns : List (NamedArg Node)} (he : e.Spans ts)
    (hargs : Phrase.AllAmong us ((ps.map Argument.positional ++ ns.map Argument.named).map Phrase.arg)) :
    ∀ c ∈ e :: ps ++ ns.map (·.value), c.PartOf (ts ++ w :: us ++ [v]) := by
  have harg := Phrase.allAmong_map hargs
  simp only [List.forall_mem_append, List.forall_mem_cons, List.forall_mem_map]
  refine ⟨⟨he.partOf (by grind), ?_⟩, ?_⟩
  · intro c hc
    obtain ⟨vs, hvs, hspans⟩ := harg (.positional c) (List.mem_append_left _ (List.mem_map_of_mem hc))
    exact Node.PartOf.mono hspans (hvs.trans (by grind))
  · intro a ha
    obtain ⟨vs, hvs, hspans⟩ := harg (.named a) (List.mem_append_right _ (List.mem_map_of_mem ha))
    exact Node.PartOf.mono hspans (hvs.trans (by grind))

theorem apply {ps : List Node} {ns : List (NamedArg Node)} (he : e.Spans ts)
    (hparts : ∀ c ∈ e :: ps ++ ns.map (·.value), c.PartOf (ts ++ w :: us ++ [v])) :
    (Node.apply e ps ns false (e.range.upTo v.range)).Spans (ts ++ w :: us ++ [v]) :=
  spans_of_parts (over_upTo ((he.1.1.append _).append _) ((endsWith_word v).append _)) hparts trivial

theorem tailstrict {ps : List Node} {ns : List (NamedArg Node)} (hq : q.Over ts)
    (hparts : ∀ c ∈ e :: ps ++ ns.map (·.value), c.PartOf ts) :
    (Node.apply e ps ns true (q.upTo w.range)).Spans (ts ++ [w]) := by
  refine spans_of_parts (over_upTo (hq.1.append _) ((endsWith_word w).append ts)) ?_ trivial
  intro c hc
  exact (hparts c hc).mono (List.sublist_append_left ts [w])

theorem applyBrace (he : e.Spans ts) (ho : o.Spans us) : (Node.applyBrace e o (e.range.upTo o.range)).Spans (ts ++ us) := by
  refine spans_of_parts (over_upTo (he.1.1.append _) (ho.1.2.append _)) ?_ trivial
  simp only [Node.children, List.forall_mem_cons]
  exact ⟨he.partOf (by grind), ho.partOf (by grind), List.forall_mem_nil _⟩

/-! ### Operands, arrays and objects -/

theorem superField {f : Option Text} : (Node.superIndex none f (w.range.upTo v.range)).Spans [w, x, v] :=
  spans_of_leaf (over_upTo (beginsWith_cons w _) (((endsWith_word v).cons x).cons w)) rfl trivial

theorem forSpec {name : Text} (he : e.Spans ts) :
    (Node.forSpec name e (w.range.upTo e.range)).Spans (w :: x :: v :: ts) := by
  refine spans_of_parts (over_upTo (beginsWith_cons w _) (((he.1.2.cons v).cons x).cons w)) ?_ trivial
  simp only [Node.children, List.forall_mem_singleton]
  exact he.partOf (by grind)

theorem objectLocal {b : Bind Node} (hb : b.Spans ts) : (Node.objectLocal b (w.range.upTo b.range)).Spans (w :: ts) := by
  have hsub : ts.Sublist (w :: ts) := List.sublist_cons_self w ts
  refine spans_of_parts (over_upTo (beginsWith_cons w _) (hb.range.2.cons w)) ?_ (hb.named.mono hsub)
  simp only [Node.children, List.forall_mem_singleton]
  exact hb.child.mono hsub

theorem objectAssertMessage (he : e.Spans ts) (hm : m.Spans us) :
    (Node.objectAssert e (some m) (w.range.upTo m.range)).Spans (w :: ts ++ v :: us) := by
  refine spans_of_parts (over_upTo (beginsWith_cons w _) ((hm.1.2.cons v).append _)) ?_ trivial
  simp only [Node.children, Option.toList_some, List.forall_mem_cons]
  exact ⟨he.partOf (by grind), hm.partOf (by grind), List.forall_mem_nil _⟩

/-- The words of a field, those of its name and of the divider before its value. -/
theorem field {k : NameKind} {vis : Visibility} {plus : Bool} (hq : q.BeginsWith ts) (hn : n.PartOf ts)
    (hend : e.range.EndsWith us) (he : e.PartOf us) :
    (Node.field k n e vis plus none (q.upTo e.range)).Spans (ts ++ us) := by
  refine spans_of_parts (over_upTo (hq.append us) (hend.append ts)) ?_ trivial
  simp only [Node.children, Option.getD_none, List.forall_mem_cons]
  exact ⟨hn.mono (by grind), he.mono (by grind), List.forall_mem_nil _⟩

theorem method {k : NameKind} {vis : Visibility} {ps : List (Param Node)} (hq : q.BeginsWith ts) (hn : n.PartOf ts)
    (hps : ∀ p ∈ ps, p.PartOf us) (he : e.Spans vs) :
    (Node.field k n e vis false (some (.function ps e (q.upTo e.range))) (q.upTo e.range)).Spans (ts ++ us ++ v :: vs) := by
  have hover : (q.upTo e.range).Over (ts ++ us ++ v :: vs) := over_upTo ((hq.append us).append _) ((he.1.2.cons v).append _)
  have hfunction : (Node.function ps e (q.upTo e.range)).Spans (ts ++ us ++ v :: vs) :=
    function hover (fun p hp => (hps p hp).mono (by grind)) (he.partOf (by grind))
  refine spans_of_parts hover ?_ trivial
  simp only [Node.children, Option.getD_some, List.forall_mem_cons]
  exact ⟨hn.mono (by grind), hfunction.partOf (.refl _), List.forall_mem_nil _⟩

end Node.Spans

/-! ### Binds, parameters and lists -/

theorem Bind.Spans.value {e : Node} (hw : w.token.terminal = .name) (he : e.Spans ts) :
    Bind.Spans (w :: v :: ts) ⟨w.spelling, e, none, w.range.upTo e.range⟩ := by
  have hover : (w.range.upTo e.range).Over (w :: v :: ts) := over_upTo (beginsWith_cons w _) ((he.1.2.cons v).cons w)
  exact ⟨hover, Word.Spells.namedBy ⟨hw, rfl⟩ hover (.refl _) rfl, he.partOf (by grind)⟩

theorem Bind.Spans.function {e : Node} {ps : List (Param Node)} (hw : w.token.terminal = .name)
    (hps : ∀ p ∈ ps, p.PartOf ts) (he : e.Spans us) :
    Bind.Spans (w :: ts ++ v :: us)
      ⟨w.spelling, e, some (.function ps e (w.range.upTo e.range)), w.range.upTo e.range⟩ := by
  have hover : (w.range.upTo e.range).Over (w :: ts ++ v :: us) := over_upTo (beginsWith_cons w _) ((he.1.2.cons v).append _)
  have hfunction : (Node.function ps e (w.range.upTo e.range)).Spans (w :: ts ++ v :: us) :=
    Node.Spans.function hover (fun p hp => (hps p hp).mono (by grind)) (he.partOf (by grind))
  exact ⟨hover, Word.Spells.namedBy ⟨hw, rfl⟩ hover (.refl _) rfl, hfunction.partOf (.refl _)⟩

theorem Param.PartOf.param (hw : w.token.terminal = .name) : Param.PartOf [w] ⟨w.spelling, none, w.range⟩ :=
  ⟨Word.Spells.namedBy ⟨hw, rfl⟩ (Range.over_word w) (.refl _) rfl, by rintro _ ⟨⟩⟩

theorem Param.PartOf.paramValue {e : Node} (hw : w.token.terminal = .name) (he : e.Spans ts) :
    Param.PartOf (w :: v :: ts) ⟨w.spelling, some e, w.range⟩ := by
  refine ⟨Word.Spells.namedBy ⟨hw, rfl⟩ (Range.over_word w) (by grind) rfl, ?_⟩
  rintro _ ⟨⟩
  exact he.partOf (by grind)

theorem Phrase.AllAmong.more {p : Phrase} {ps : List Phrase} (hps : Phrase.AllAmong ts ps) (hp : p.Spans us) :
    Phrase.AllAmong (ts ++ w :: us) (ps ++ [p]) := by
  refine Phrase.allAmong_iff.mpr (List.forall_mem_append.mpr ⟨?_, ?_⟩)
  · exact Phrase.allAmong_iff.mp (Phrase.AllAmong.mono hps (by grind))
  · exact List.forall_mem_singleton.mpr ⟨us, by grind, hp⟩

/-- A phrase was read from its words. -/
theorem Derives.spans {p : Phrase} {ts : List Word} (h : Derives p ts) : p.Spans ts := by
  induction h with
  | looser _ _ ih | string _ ih | objectExpr _ ih => exact ih
  -- operators and the forms that start with a keyword
  | binary _ _ _ _ ihl ihr => exact Node.Spans.binary ihl ihr
  | inSuper _ _ _ ih => exact Node.Spans.inSuper ih
  | unary _ _ _ ih | error _ _ ih => exact Node.Spans.prefixed ih rfl rfl trivial
  | localIn _ _ _ _ ihb ihe => exact Node.Spans.localIn (Phrase.allAmong_map ihb) ihe
  | ifThen _ _ _ _ ihc ihe => exact Node.Spans.ifThen ihc ihe
  | ifThenElse _ _ _ _ _ _ ihc ihm ihe => exact Node.Spans.ifThenElse ihc ihm ihe
  | @function _ e _ _ w _ _ _ ihp ihe =>
    refine Node.Spans.function (over_upTo (beginsWith_cons w _) (ihe.1.2.append _)) ?_ (Node.Spans.partOf ihe (by grind))
    intro p hp
    exact (ihp p hp).mono (by grind)
  | assertion _ _ _ _ ihc ihe => exact Node.Spans.assertion ihc ihe
  | assertionMessage _ _ _ _ _ _ ihc ihm ihe => exact Node.Spans.assertionMessage ihc ihm ihe
  -- binds and parameters
  | valueBind hw _ _ ih => exact Bind.Spans.value hw.1 ih
  | functionBind hw _ _ _ ihp ihe => exact Bind.Spans.function hw.1 ihp ihe
  | params _ _ _ ih =>
    intro p hp
    obtain ⟨vs, hvs, hspans⟩ := Phrase.allAmong_map ih p hp
    exact Param.PartOf.mono hspans (hvs.trans (by grind))
  | param hw => exact Param.PartOf.param hw.1
  | paramValue hw _ _ ih => exact Param.PartOf.paramValue hw.1 ih
  -- suffixes
  | fieldAccess _ _ _ ih => exact Node.Spans.fieldAccess ih
  | index _ _ _ _ ihe ihi => exact Node.Spans.index ihe ihi
  | slice _ _ _ _ _ _ ihe iha ihb => exact Node.Spans.slice ihe iha ihb
  | sliceStep _ _ _ _ _ _ _ _ ihe iha ihb ihd => exact Node.Spans.sliceStep ihe iha ihb ihd
  | sliceNoStop _ _ _ _ _ _ ihe iha ihd => exact Node.Spans.sliceNoStop ihe iha ihd
  | absent => exact fun e he => nomatch he
  | present _ ih =>
    rintro _ ⟨⟩
    exact ih
  | call _ _ _ _ ihe iha => exact ⟨Node.Spans.apply ihe (Node.Spans.arguments ihe iha), Node.Spans.arguments ihe iha⟩
  | apply _ ih => exact ih.1
  | tailstrict _ _ ih => exact Node.Spans.tailstrict ih.1.1 ih.2
  | positional _ ih => exact Node.Spans.partOf ih (.refl _)
  | named _ _ _ ih => exact Node.Spans.partOf ih (by grind)
  | applyBrace _ _ ihe iho => exact Node.Spans.applyBrace ihe iho
  -- operands
  | null | true | false | self | dollar => exact Node.Spans.word rfl rfl trivial
  | @number w ht => exact Node.Spans.word rfl rfl ⟨w, List.mem_cons_self, rfl, ht, rfl, rfl⟩
  | @var w hw => exact Node.Spans.word rfl rfl ⟨w, List.mem_cons_self, rfl, hw.1, rfl⟩
  | @stringLiteral k value w hk _ hv =>
    exact Node.Spans.word rfl rfl ⟨w, List.mem_cons_self, rfl, .inl ⟨hk, value, hv, rfl⟩⟩
  | parens _ _ _ ih =>
    exact Node.Spans.bracketed (List.forall_mem_singleton.mpr (Node.Spans.partOf ih (.refl _))) rfl trivial
  | superField => exact Node.Spans.superField
  | @superIndex e ts _ x _ _ _ _ _ ih =>
    have hparts : ∀ c ∈ [e], c.PartOf (x :: ts) := List.forall_mem_singleton.mpr (Node.Spans.partOf ih (by grind))
    exact Node.Spans.bracketed hparts rfl trivial
  | importFile _ _ _ ih => exact Node.Spans.prefixed ih rfl rfl trivial
  -- arrays
  | array _ _ _ ih => exact Node.Spans.bracketed (Phrase.AllAmong.partOf ih (.refl _) fun _ _ h => h) rfl trivial
  | @arrayComp e ss ts us _ _ _ _ _ _ ihe ihs =>
    obtain ⟨⟨vs, hvs, hspans⟩, _⟩ := ihe
    have hparts : ∀ c ∈ ss ++ [e], c.PartOf (ts ++ us) := by
      rw [List.forall_mem_append, List.forall_mem_singleton]
      exact ⟨fun s hs => (ihs s hs).mono (by grind), Node.Spans.partOf hspans (hvs.trans (by grind))⟩
    exact Node.Spans.bracketed hparts rfl trivial
  | forSpec _ _ _ _ ih => exact Node.Spans.forSpec ih
  | ifSpec _ _ ih => exact Node.Spans.prefixed ih rfl rfl trivial
  | firstSpec _ ih => exact List.forall_mem_singleton.mpr (Node.Spans.partOf ih (.refl _))
  | nextSpec _ _ ihss ihs =>
    refine List.forall_mem_append.mpr ⟨fun c hc => (ihss c hc).mono (by grind), ?_⟩
    exact List.forall_mem_singleton.mpr (Node.Spans.partOf ihs (by grind))
  -- objects
  | object _ _ _ ih => exact Node.Spans.bracketed (Phrase.AllAmong.partOf ih (.refl _) fun _ _ h => h) rfl trivial
  | @objectComp ms ss _ ts us _ _ _ _ _ _ _ _ _ ihm ihs =>
    have hparts : ∀ c ∈ ss ++ ms, c.PartOf (ts ++ us) := by
      refine List.forall_mem_append.mpr ⟨fun s hs => (ihs s hs).mono (by grind), ?_⟩
      exact Phrase.AllAmong.partOf ihm (by grind) fun _ _ h => h
    exact Node.Spans.bracketed hparts rfl trivial
  | objectLocal _ _ ih => exact Node.Spans.objectLocal ih
  | objectAssert _ _ ih => exact Node.Spans.prefixed ih rfl rfl trivial
  | objectAssertMessage _ _ _ _ ihe ihm => exact Node.Spans.objectAssertMessage ihe ihm
  | field _ _ _ _ ihn ihe =>
    exact Node.Spans.field ihn.1 ihn.2 (ihe.1.2.cons _) (Node.Spans.partOf ihe (by grind))
  | fieldPlus _ _ _ _ _ ihn ihe =>
    exact Node.Spans.field ihn.1 ihn.2 ((ihe.1.2.cons _).cons _) (Node.Spans.partOf ihe (by grind))
  | method _ _ _ _ _ ihn ihp ihe => exact Node.Spans.method ihn.1 ihn.2 ihp ihe
  | @idName w hw =>
    have hname : (Node.string w.spelling .double w.range).Spans [w] :=
      Node.Spans.word rfl rfl ⟨w, List.mem_cons_self, rfl, .inr ⟨⟨hw.1, rfl⟩, rfl⟩⟩
    exact ⟨beginsWith_cons w [], hname.partOf (.refl _)⟩
  | stringName _ ih => exact ⟨ih.1.1, Node.Spans.partOf ih (.refl _)⟩
  | @computedName _ _ w _ _ _ _ ih => exact ⟨beginsWith_cons w _, Node.Spans.partOf ih (by grind)⟩
  -- lists
  | one _ ih => exact ⟨⟨_, .refl _, ih⟩, trivial⟩
  | more _ _ _ ihs ih => exact Phrase.AllAmong.more ihs ih
  | noItems => trivial
  | items _ ih => exact ih
  | itemsComma _ _ ih => exact Phrase.AllAmong.mono ih (by grind)

/-! ## Words that stand in a text -/

/-- The word is a token of the text: its terminal takes just its spelling where it stands. -/
structure Word.TokenOf (text : List Char) (w : Word) : Prop where
  start : w.range.start = placeAfter w.before
  stop : w.range.stop = placeAfter (w.before ++ w.text)
  ne_nil : w.text ≠ []
  taken : ∃ after, text = w.before ++ w.text ++ after ∧ w.token.terminal.width (w.text ++ after) = w.text.length

/-- The words are tokens of the text, one after another. -/
structure Ordered (text : List Char) (ts : List Word) : Prop where
  tokens : ∀ w ∈ ts, w.TokenOf text
  pairwise : ts.Pairwise fun v w => ∃ between, w.before = v.before ++ v.text ++ between

theorem Ordered.sublist {text : List Char} {us ts : List Word} (h : Ordered text ts) (hs : us.Sublist ts) : Ordered text us :=
  ⟨fun w hw => h.tokens w (hs.subset hw), h.pairwise.sublist hs⟩

/-- Each terminal takes the text of its word. -/
theorem Scans.width_eq {file : Text} {s : State} {before cs : List Char} {ws : List Word} {e : Node}
    (h : Scans file s before cs ws e) {us vs : List Word} {w : Word} (hw : ws = us ++ w :: vs) :
    w.token.terminal.width (w.text ++ texts vs) = w.text.length := by
  induction h generalizing us with
  | stop => simp at hw
  | skip hm _ hrest ih | take hm _ _ hrest ih =>
    cases us with
    | nil =>
      cases hw
      rw [hrest.texts_eq]
      exact (Terminal.first_width hm).1
    | cons u us =>
      rw [List.cons_append, List.cons.injEq] at hw
      exact ih hw.2

theorem Scans.ordered {file : Text} {s : State} {cs : List Char} {ws : List Word} {e : Node} (h : Scans file s [] cs ws e) :
    Ordered cs ws := by
  refine ⟨?_, h.pairwise⟩
  intro w hw
  obtain ⟨us, vs, hsplit⟩ := List.append_of_mem hw
  have hplaced := h.placed w hw
  refine ⟨by rw [hplaced], by rw [hplaced], h.text_ne_nil w hw, texts vs, ?_, h.width_eq hsplit⟩
  rw [← h.texts_eq, h.before_eq hsplit, hsplit, texts_append, texts_cons, List.nil_append, List.append_assoc]

section Ordered

variable {text : List Char} {ts : List Word} {r q : Range}

/-- A range that begins with ordered words begins no later than any of them. -/
theorem Ordered.start_le (h : Ordered text ts) (hr : r.BeginsWith ts) {w : Word} (hw : w ∈ ts) : r.start ≤ w.range.start := by
  obtain ⟨v, hv, hstart⟩ := hr
  obtain ⟨us, rfl⟩ : ∃ us, ts = v :: us := by
    cases ts with
    | nil => cases hv
    | cons u us => exact ⟨us, by cases hv; rfl⟩
  rw [hstart]
  rcases List.mem_cons.mp hw with rfl | hmem
  · exact Position.le_rfl
  · obtain ⟨between, hb⟩ := List.rel_of_pairwise_cons h.pairwise hmem
    rw [(h.tokens v List.mem_cons_self).start, (h.tokens w hw).start, hb, List.append_assoc]
    exact placeAfter_le _ _

/-- A range that ends with ordered words ends no earlier than any of them. -/
theorem Ordered.le_stop (h : Ordered text ts) (hr : r.EndsWith ts) {w : Word} (hw : w ∈ ts) : w.range.stop ≤ r.stop := by
  obtain ⟨v, hv, hstop⟩ := hr
  obtain ⟨us, rfl⟩ := List.getLast?_eq_some_iff.mp hv
  rw [hstop]
  rcases List.mem_append.mp hw with hmem | hmem
  · obtain ⟨between, hb⟩ := (List.pairwise_append.mp h.pairwise).2.2 w hmem v List.mem_cons_self
    rw [(h.tokens w hw).stop, (h.tokens v (by simp)).stop, hb, List.append_assoc, List.append_assoc, ← List.append_assoc w.before]
    exact placeAfter_le _ _
  · obtain rfl := List.mem_singleton.mp hmem
    exact Position.le_rfl

theorem Ordered.contains (h : Ordered text ts) (hr : r.Over ts) (hq : q.Among ts) : r.Contains q := by
  obtain ⟨us, hus, ⟨v, hv, hstart⟩, ⟨w, hw, hstop⟩⟩ := hq
  constructor
  · rw [hstart]
    exact h.start_le hr.1 (hus.subset (List.mem_of_head? hv))
  · rw [hstop]
    exact h.le_stop hr.2 (hus.subset (List.mem_of_getLast? hw))

/-- A range over ordered words is that of a piece of the text. -/
theorem Ordered.inside (h : Ordered text ts) (hr : r.Over ts) : r.Inside text := by
  obtain ⟨⟨v, hv, hstart⟩, ⟨w, hw, hstop⟩⟩ := hr
  have hvt := h.tokens v (List.mem_of_head? hv)
  have hwt := h.tokens w (List.mem_of_getLast? hw)
  obtain ⟨after, htext, _⟩ := hwt.taken
  -- what the text up to the last word has beyond what stands before the first
  obtain ⟨piece, hpiece⟩ : ∃ piece, w.before ++ w.text = v.before ++ piece := by
    obtain ⟨us, rfl⟩ : ∃ us, ts = v :: us := by
      cases ts with
      | nil => cases hv
      | cons u us => exact ⟨us, by cases hv; rfl⟩
    rcases List.mem_cons.mp (List.mem_of_getLast? hw) with rfl | hmem
    · exact ⟨w.text, rfl⟩
    · obtain ⟨between, hb⟩ := List.rel_of_pairwise_cons h.pairwise hmem
      exact ⟨v.text ++ between ++ w.text, by rw [hb]; simp⟩
  have hcovers : r.Covers text piece := by
    refine ⟨v.before, after, ?_, ?_, ?_⟩
    · rw [← hpiece, htext]
    · rw [hstart, hvt.start]
    · rw [hstop, hwt.stop, hpiece]
  exact hcovers.inside

theorem Ordered.inside_of_among (h : Ordered text ts) (hr : r.Among ts) : r.Inside text := by
  obtain ⟨us, hus, hover⟩ := hr
  exact (h.sublist hus).inside hover

end Ordered

/-! ## Trees -/

def Node.params : Node → List (Param Node)
  | .function params _ _ => params
  | _ => []

/-- A name of the text begins at the place, and this is its spelling. -/
def NameStandsAt (ws : List Word) (place : Position) (name : Text) : Prop :=
  ∃ w ∈ ws, w.token.terminal = .name ∧ w.range.start = place ∧ w.spelling = name

/-- What the range of a construct says about the text, whose words are `ws`. -/
structure Node.Faithful (text : List Char) (ws : List Word) (n : Node) : Prop where
  inside : n.range.Inside text
  children : ∀ c ∈ n.children, n.range.Contains c.range
  binds : ∀ b ∈ n.binds, b.range.Inside text ∧ NameStandsAt ws b.range.start b.name
  params : ∀ p ∈ n.params, p.range.Inside text ∧ NameStandsAt ws p.range.start p.name
  var : ∀ name range, n = .var name range → ∀ piece, range.Covers text piece ↔ name = .ofChars piece
  string : ∀ value kind range, n = .string value kind range →
    ∃ w ∈ ws, range = w.range ∧ range.Covers text w.text ∧ w.SpellsString value kind
  number : ∀ value spelling range, n = .number value spelling range →
    ∃ w ∈ ws, range = w.range ∧ range.Covers text w.text ∧ w.token.terminal = .number ∧ spelling = .ofChars w.text ∧
      value = Literal.numberValue w.text

theorem Word.TokenOf.covers {text : List Char} {w : Word} (h : w.TokenOf text) : w.range.Covers text w.text := by
  obtain ⟨after, htext, _⟩ := h.taken
  exact ⟨w.before, after, htext, h.start, h.stop⟩

theorem NamedBy.nameStandsAt {us ws : List Word} {name : Text} {r : Range} (h : NamedBy name r us)
    (hs : us.Sublist ws) : NameStandsAt ws r.start name := by
  obtain ⟨_, w, hw, ⟨hname, rfl⟩, hstart⟩ := h
  exact ⟨w, hs.subset hw, hname, hstart.symm, rfl⟩

/-- A construct that was read from ordered words. -/
theorem Ordered.faithful {text : List Char} {us ws : List Word} {n : Node} (h : Ordered text us) (hs : us.Sublist ws)
    (hn : n.SitsIn us) : n.Faithful text ws where
  inside := h.inside hn.range
  children c hc := h.contains hn.range (hn.children c hc)
  binds b hb := by
    have hreads := hn.reads
    have hnamed : NamedBy b.name b.range us := by
      cases n with
      | localIn bs e r => exact hreads b hb
      | objectLocal b' r =>
        obtain rfl := List.mem_singleton.mp hb
        exact hreads
      | _ => cases hb
    exact ⟨h.inside_of_among hnamed.1, hnamed.nameStandsAt hs⟩
  params p hp := by
    have hreads := hn.reads
    have hnamed : NamedBy p.name p.range us := by
      cases n with
      | function ps e r => exact hreads p hp
      | _ => cases hp
    exact ⟨h.inside_of_among hnamed.1, hnamed.nameStandsAt hs⟩
  var := by
    rintro name range rfl
    obtain ⟨w, hw, rfl, _, rfl⟩ := hn.reads
    have hcovers := (h.tokens w hw).covers
    intro piece
    constructor
    · intro hpiece
      rw [hpiece.unique hcovers]
      rfl
    · intro hspelling
      have hchars : w.text = piece := Text.ofChars_injective hspelling
      exact hchars ▸ hcovers
  string := by
    rintro value kind range rfl
    obtain ⟨w, hw, rfl, hspells⟩ := hn.reads
    exact ⟨w, hs.subset hw, rfl, (h.tokens w hw).covers, hspells⟩
  number := by
    rintro value spelling range rfl
    obtain ⟨w, hw, rfl, ht, rfl, rfl⟩ := hn.reads
    exact ⟨w, hs.subset hw, rfl, (h.tokens w hw).covers, ht, rfl, rfl⟩

/-- The ranges of the tree of a text say where its constructs stand. -/
theorem locations_faithful {file : Text} {text : List Char} {tree : Node} (h : parseChars file text = .ok tree) :
    texts (words file text) = text ∧ (∀ w ∈ words file text, w.TokenOf text) ∧
      ∀ n ∈ tree.walk, n.Faithful text (words file text) := by
  have hscans : Scans file .start [] text (words file text) tree := scans_of_parseFrom h
  have hordered := hscans.ordered
  refine ⟨hscans.texts_eq, hordered.tokens, ?_⟩
  intro n hn
  obtain ⟨us, hus, hsits⟩ := hscans.derives.spans.2 n hn
  have hsub : us.Sublist (words file text) := hus.trans List.filter_sublist
  exact (hordered.sublist hsub).faithful hsub hsits

/-- A text block shifts the lines after it. -/
theorem locations_faithful_block :
    ∃ tree, parseChars "" "local f(x=1)=|||\n a\n|||;\nf".toList = .ok tree ∧
      ∀ n ∈ tree.walk,
        n.Faithful "local f(x=1)=|||\n a\n|||;\nf".toList (words "" "local f(x=1)=|||\n a\n|||;\nf".toList) := by
  have hok : (parseChars "" "local f(x=1)=|||\n a\n|||;\nf".toList).isOk = true := by decide +kernel
  cases h : parseChars "" "local f(x=1)=|||\n a\n|||;\nf".toList with
  | error => rw [h] at hok; cases hok
  | ok tree => exact ⟨tree, rfl, (locations_faithful h).2.2⟩

end JsonnetLocals
