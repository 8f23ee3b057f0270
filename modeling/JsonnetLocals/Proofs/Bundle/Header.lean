/-
  JsonnetLocals.Proofs.Bundle.Header — the header above renamed code.

  A header is a comment line unless the identity of the file has a newline in it: the time is written
  without one (`Moment.newline_notMem_stamp`), and the identity as it is. So with a header the code has its
  tree one line further down just when the identity is one line (`Bundler.render_below_header_iff`), and a
  file whose name has a newline may be given code that does not parse (`Bundler.render_splits_header`).
-/

import JsonnetLocals.Proofs.Bundle.Faithful
import JsonnetLocals.Proofs.Syntax.CommentLine
import JsonnetLocals.Proofs.Text.FileName

namespace JsonnetLocals

/-! ## Times -/

theorem WallTime.newline_notMem_dateTime (t : WallTime) : '\n' ∉ t.dateTime.toList := by
  simp [dateTime, notMem_padded (c := '\n') (by decide)]

theorem Moment.newline_notMem_offsetText (offset : Int) : '\n' ∉ (offsetText offset).toList := by
  have hpadded (width n : Nat) := WallTime.notMem_padded (c := '\n') (by decide) width n
  unfold offsetText
  split
  · decide
  · dsimp only
    simp only [String.toList_append, List.mem_append, not_or]
    refine ⟨⟨⟨⟨?_, hpadded _ _⟩, by decide⟩, hpadded _ _⟩, ?_⟩
    · split <;> decide
    · split
      · decide
      · rw [String.toList_append, List.mem_append, not_or]
        exact ⟨by decide, hpadded _ _⟩

/-- The time in a header is on one line. -/
theorem Moment.newline_notMem_stamp {m : Moment} {stamp : String} (h : m.stamp = .ok stamp) : '\n' ∉ stamp.toList := by
  unfold Moment.stamp at h
  cases hlocal : m.localize with
  | error e =>
    rw [hlocal] at h
    cases h
  | ok local' =>
    rw [hlocal] at h
    obtain rfl := Except.ok.inj h
    rw [String.toList_append, List.mem_append, not_or]
    exact ⟨local'.wall.newline_notMem_dateTime, newline_notMem_offsetText _⟩

/-! ## Headers -/

/-- What a header says, behind the slashes. -/
def headerLine (stamp : String) (identity : List Char) : List Char :=
  " Auto-generated by jsonnet-bundler at ".toList ++ stamp.toList ++ " for ".toList ++ identity

theorem header_eq_ok_iff {stamp : String} {identity : Text} {bytes : Bytes} :
    header stamp identity = .ok bytes ↔
      ∃ cs, identity = .ofChars cs ∧ bytes = Utf8.encodeChars ('/' :: '/' :: headerLine stamp cs ++ ['\n']) := by
  have htext (cs : List Char) :
      "// Auto-generated by jsonnet-bundler at ".toList ++ stamp.toList ++ " for ".toList ++ cs ++ "\n".toList =
        '/' :: '/' :: headerLine stamp cs ++ ['\n'] := rfl
  unfold header
  simp only [Text.encode_append_eq_ok_iff, Text.encode_ofString, Utf8.encode]
  constructor
  · rintro ⟨_, _, ⟨_, _, ⟨_, _, ⟨_, _, ha, hb, rfl⟩, hc, rfl⟩, hd, rfl⟩, he, rfl⟩
    obtain ⟨cs, rfl, rfl⟩ := Text.encode_eq_ok_iff.mp hd
    cases ha
    cases hb
    cases hc
    cases he
    exact ⟨cs, rfl, by rw [← htext]; simp only [Utf8.encodeChars_append]⟩
  · rintro ⟨cs, rfl, rfl⟩
    refine ⟨_, _, ⟨_, _, ⟨_, _, ⟨_, _, rfl, rfl, rfl⟩, rfl, rfl⟩, Text.encode_ofChars cs, rfl⟩, rfl, ?_⟩
    rw [← htext]
    simp only [Utf8.encodeChars_append]

namespace Bundler

variable {b : Bundler} {r : Renamed} {identity name : Text} {bytes : Bytes} {tree : Node}

theorem render_eq_ok_iff (hheader : b.config.addHeader = true) :
    b.render r identity = .ok bytes ↔
      ∃ stamp cs, (b.headerTime >>= Moment.stamp) = .ok stamp ∧ identity = .ofChars cs ∧
        bytes = Utf8.encodeChars ('/' :: '/' :: headerLine stamp cs ++ ['\n']) ++ r.code := by
  unfold render
  rw [if_pos hheader]
  cases hstamp : b.headerTime >>= Moment.stamp with
  | error e => simp
  | ok stamp =>
    dsimp only
    cases hh : header stamp identity with
    | error u =>
      have hnone : ∀ cs, identity ≠ .ofChars cs := by
        intro cs heq
        rw [header_eq_ok_iff.mpr ⟨cs, heq, rfl⟩] at hh
        cases hh
      simp [hnone]
    | ok front =>
      obtain ⟨cs, rfl, rfl⟩ := header_eq_ok_iff.mp hh
      constructor
      · intro h
        exact ⟨stamp, cs, rfl, rfl, (Except.ok.inj h).symm⟩
      · rintro ⟨stamp', cs', hs, hcs, rfl⟩
        obtain rfl := Except.ok.inj hs
        obtain rfl := Text.ofChars_injective hcs
        rfl

theorem newline_notMem_headerLine {stamp : String} {cs : List Char} (h : (b.headerTime >>= Moment.stamp) = .ok stamp) :
    '\n' ∉ headerLine stamp cs ↔ '\n' ∉ cs := by
  have hstamp : '\n' ∉ stamp.toList := by
    cases htime : b.headerTime with
    | error e =>
      rw [htime] at h
      cases h
    | ok m =>
      rw [htime] at h
      exact Moment.newline_notMem_stamp h
  have hwords : '\n' ∉ " Auto-generated by jsonnet-bundler at ".toList ∧ '\n' ∉ " for ".toList := by decide
  unfold headerLine
  simp only [List.mem_append, not_or]
  exact ⟨fun h => h.2, fun h => ⟨⟨⟨hwords.1, hstamp⟩, hwords.2⟩, h⟩⟩

/-- The bytes are one comment line and the code, and parse to the tree of the code one line further down. -/
structure BelowComment (name : Text) (code : Bytes) (tree : Node) (bytes : Bytes) : Prop where
  line : ∃ line, '\n' ∉ line ∧ bytes = Utf8.encodeChars ('/' :: '/' :: line ++ ['\n']) ++ code
  parses : parse name bytes = .ok (tree.relocate .lineDown)

/-- With a header there is an output just when there is a time and the identity is a text of characters. It is the code
    below a comment line just when the identity has no newline. -/
theorem render_below_header_iff (identity : Text) (hheader : b.config.addHeader = true)
    (hparse : parse name r.code = .ok tree) :
    ((∃ bytes, b.render r identity = .ok bytes) ↔
      (∃ stamp, (b.headerTime >>= Moment.stamp) = .ok stamp) ∧ ∃ cs, identity = .ofChars cs) ∧
    ∀ bytes, b.render r identity = .ok bytes → (BelowComment name r.code tree bytes ↔ '\n'.toNat ∉ identity.codes) := by
  simp only [render_eq_ok_iff hheader]
  constructor
  · constructor
    · rintro ⟨_, stamp, cs, hstamp, hcs, -⟩
      exact ⟨⟨stamp, hstamp⟩, cs, hcs⟩
    · rintro ⟨⟨stamp, hstamp⟩, cs, hcs⟩
      exact ⟨_, stamp, cs, hstamp, hcs, rfl⟩
  · rintro _ ⟨stamp, cs, hstamp, rfl, rfl⟩
    have hcodes : '\n'.toNat ∉ (Text.ofChars cs).codes ↔ '\n' ∉ cs :=
      not_congr (List.mem_map_of_injective fun _ _ => Char.toNat_inj.mp)
    rw [hcodes, ← newline_notMem_headerLine hstamp]
    constructor
    · rintro ⟨⟨line, hline, heq⟩, -⟩
      have hchars := Utf8.encodeChars_injective (List.append_cancel_right heq)
      obtain rfl : headerLine stamp cs = line := by simpa using hchars
      exact hline
    · intro hline
      exact ⟨⟨_, hline, rfl⟩, parse_below_comment hline hparse⟩

def withHeader : Bundler := { intoOut none with config := { (intoOut none).config with addHeader := true } }

theorem render_below_header :
    ∃ log r tree bytes, withHeader.renameSource (Utf8.encode "local x = 1; 2") "a.jsonnet" "" = (log, .ok r) ∧
      parse "a.jsonnet" r.code = .ok tree ∧ withHeader.render r "a.jsonnet" = .ok bytes ∧
      BelowComment "a.jsonnet" r.code tree bytes := by
  have hok : (match (withHeader.renameSource (Utf8.encode "local x = 1; 2") "a.jsonnet" "").2 with
      | .ok r => (parse "a.jsonnet" r.code).isOk
      | .error _ => false) = true := by decide +kernel
  rcases hr : withHeader.renameSource (Utf8.encode "local x = 1; 2") "a.jsonnet" "" with ⟨log, _ | r⟩
  · rw [hr] at hok
    cases hok
  · rw [hr] at hok
    cases hparse : parse "a.jsonnet" r.code with
    | error e =>
      dsimp only at hok
      rw [hparse] at hok
      cases hok
    | ok tree =>
      obtain ⟨hrender, hbelow⟩ := render_below_header_iff (b := withHeader) "a.jsonnet" rfl hparse
      obtain ⟨bytes, hbytes⟩ := hrender.mpr ⟨⟨"2024-05-01T12:30:00Z", by decide⟩, "a.jsonnet".toList, rfl⟩
      exact ⟨log, r, tree, bytes, rfl, hparse, hbytes, (hbelow bytes hbytes).mpr (by decide)⟩

/-- The name of this file has a newline, so its header is two lines: the second is code, and the output does not parse. -/
theorem render_splits_header :
    ∃ log r tree bytes, withHeader.renameSource (Utf8.encode "local x = 1; 2") "a\nb.jsonnet" "" = (log, .ok r) ∧
      parse "a\nb.jsonnet" r.code = .ok tree ∧ withHeader.render r "a\nb.jsonnet" = .ok bytes ∧
      ∀ tree', parse "a\nb.jsonnet" bytes ≠ .ok tree' := by
  have hok : (match (withHeader.renameSource (Utf8.encode "local x = 1; 2") "a\nb.jsonnet" "").2 with
      | .ok r => (parse "a\nb.jsonnet" r.code).isOk && (match withHeader.render r "a\nb.jsonnet" with
        | .ok bytes => !(parse "a\nb.jsonnet" bytes).isOk
        | .error _ => false)
      | .error _ => false) = true := by decide +kernel
  rcases hr : withHeader.renameSource (Utf8.encode "local x = 1; 2") "a\nb.jsonnet" "" with ⟨log, _ | r⟩
  · rw [hr] at hok
    cases hok
  · rw [hr] at hok
    dsimp only at hok
    rw [Bool.and_eq_true] at hok
    cases hparse : parse "a\nb.jsonnet" r.code with
    | error e =>
      rw [hparse] at hok
      cases hok.1
    | ok tree =>
      cases hrender : withHeader.render r "a\nb.jsonnet" with
      | error e =>
        rw [hrender] at hok
        cases hok.2
      | ok bytes =>
        rw [hrender] at hok
        refine ⟨log, r, tree, bytes, rfl, hparse, hrender, fun tree' htree => ?_⟩
        dsimp only at hok
        rw [htree] at hok
        cases hok.2

end Bundler

end JsonnetLocals
