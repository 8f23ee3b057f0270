/-
  JsonnetLocals.Proofs.Output.Names — names that are free on a disk.

  The temporary names for a suffix are all listed apart, and so are the candidates for a target. A disk
  has finitely many entries, so one of the first few is free: a fresh name is listed nowhere
  (`Writer.get?_eq_none_of_freshName`), and the search for a free candidate ends at the first one that is
  not taken, before its tries run out (`Writer.freeName_eq`).
-/

import JsonnetLocals.Output.Writer
import JsonnetLocals.Proofs.Files.Tree
import Mathlib.Data.List.Nodup
import Mathlib.Data.List.Perm.Subperm
import Mathlib.Data.Nat.Find

namespace JsonnetLocals

/-- Of more values than a list has, one is not in it. -/
theorem exists_notMem_of_injective {α : Type} {f : Nat → α} (hf : Function.Injective f) (xs : List α) :
    ∃ n ≤ xs.length, f n ∉ xs := by
  by_contra! hall
  have hsub : (List.range (xs.length + 1)).map f ⊆ xs := by
    intro x hx
    obtain ⟨n, hn, rfl⟩ := List.mem_map.mp hx
    exact hall n (Nat.le_of_lt_succ (List.mem_range.mp hn))
  have hle := ((List.Nodup.map hf List.nodup_range).subperm hsub).length_le
  rw [List.length_map, List.length_range] at hle
  omega

/-! ## Names of digits -/

theorem Text.slash_notMem_ofString {s : String} (h : '/' ∉ s.toList) : '/'.toNat ∉ (ofString s).codes := by
  intro hmem
  obtain ⟨c, hc, heq⟩ := List.mem_map.mp hmem
  exact h (Char.toNat_inj.mp heq ▸ hc)

theorem WallTime.slash_notMem_suffix (t : WallTime) : '/' ∉ t.suffix.toList := by
  have hslash : '/'.isDigit = false := by decide
  simp [suffix, notMem_padded hslash, notMem_toDigits hslash]

/-- A name with a character other than a dot in it, and no slash, stands between slashes. -/
theorem Text.isPart_of_mem {t : Text} {c : Char} (hc : c.toNat ∈ t.codes) (hdot : c ≠ '.')
    (hslash : '/'.toNat ∉ t.codes) : t.IsPart ∧ t ≠ Path.up := by
  have hne (s : String) (hs : s.toList.all (· == '.') = true) : t ≠ ofString s := by
    rintro rfl
    obtain ⟨x, hx, heq⟩ := List.mem_map.mp hc
    exact hdot (Char.toNat_inj.mp heq ▸ eq_of_beq (List.all_eq_true.mp hs x hx))
  exact ⟨⟨hne "" (by decide), hne "." (by decide), hslash⟩, hne ".." (by decide)⟩

namespace Writer

variable {d : Disk} {cwd : Loc} {target : Path} {now : WallTime}

/-! ## Temporary names -/

theorem tempName_isPart {suffix : Text} (h : '/'.toNat ∉ suffix.codes) (n : Nat) :
    (tempName suffix n).IsPart ∧ tempName suffix n ≠ Path.up := by
  have hpadded := Text.slash_notMem_ofString (WallTime.notMem_padded (c := '/') (by decide) 8 n)
  have htmp : '/'.toNat ∉ (Text.ofString "tmp").codes := by decide
  refine Text.isPart_of_mem (c := 't') ?_ (by decide) ?_
  · exact List.mem_append_left _ (List.mem_append_left _ (by decide))
  · rw [tempName, Text.codes_append, Text.codes_append, List.mem_append, List.mem_append]
    rintro ((h' | h') | h')
    · exact htmp h'
    · exact hpadded h'
    · exact h h'

theorem storedName_tempName_injective (suffix : Text) : Function.Injective fun n => (tempName suffix n).storedName :=
  fun _ _ h => WallTime.padded_injective (Text.storedName_cancel h)

theorem freshName_spec (d : Disk) (target : Path) :
    (∃ n, freshName d target = tempName target.suffix n) ∧
      (freshName d target).storedName ∉ target.name.storedName :: d.entries.filterMap fun e => e.1.getLast? := by
  unfold freshName
  dsimp only
  generalize hnames : (target.name.storedName :: d.entries.filterMap fun e => e.1.getLast?) = names
  have hlen : names.length ≤ d.entries.length + 1 :=
    hnames ▸ Nat.succ_le_succ (List.length_filterMap_le _ _)
  cases hfind : ((List.range (d.entries.length + 2)).map (tempName target.suffix)).find?
      fun s => !names.contains s.storedName with
  | some s =>
    rw [Option.getD_some]
    obtain ⟨n, -, rfl⟩ := List.mem_map.mp (List.mem_of_find?_eq_some hfind)
    exact ⟨⟨n, rfl⟩, by simpa using List.find?_some hfind⟩
  | none =>
    -- the tries cannot all be listed
    obtain ⟨n, hn, hfree⟩ := exists_notMem_of_injective (storedName_tempName_injective target.suffix) names
    refine absurd ?_ hfree
    have htaken := List.find?_eq_none.mp hfind (tempName target.suffix n)
      (List.mem_map_of_mem (List.mem_range.mpr (by omega)))
    simpa using htaken

theorem freshName_isPart (h : '/'.toNat ∉ target.suffix.codes) :
    (freshName d target).IsPart ∧ freshName d target ≠ Path.up := by
  obtain ⟨n, hn⟩ := (freshName_spec d target).1
  rw [hn]
  exact tempName_isPart h n

/-- A fresh name is not that of the target. -/
theorem freshName_ne (d : Disk) (target : Path) : (freshName d target).storedName ≠ target.name.storedName :=
  List.ne_of_not_mem_cons (freshName_spec d target).2

/-- Nothing on the disk is listed under a fresh name. -/
theorem get?_eq_none_of_freshName (d : Disk) (target : Path) (l : Loc) :
    d.get? (l ++ [(freshName d target).storedName]) = none := by
  by_contra hne
  obtain ⟨e, he⟩ := Option.ne_none_iff_exists'.mp hne
  obtain ⟨entry, hentry, hplace⟩ := List.mem_map.mp (Disk.mem_entries_of_get? he (by simp))
  refine List.not_mem_of_not_mem_cons (freshName_spec d target).2 (List.mem_filterMap.mpr ⟨entry, hentry, ?_⟩)
  rw [hplace, List.getLast?_concat]

/-! ## Candidates -/

/-- What tells a candidate from the others. -/
def candidateNumber (n : Nat) : String := if n = 0 then "" else "_" ++ toString n

theorem candidateNumber_injective : Function.Injective candidateNumber := by
  intro m n h
  unfold candidateNumber at h
  have hne {k : Nat} : "" ≠ "_" ++ toString k := fun e => by simpa using congrArg String.toList e
  split at h <;> split at h
  · omega
  · exact absurd h hne
  · exact absurd h.symm hne
  · have hlist := congrArg String.toList h
    rw [String.toList_append, String.toList_append] at hlist
    exact toString_nat_injective (String.toList_injective (List.append_cancel_left hlist))

theorem candidate_eq (target : Path) (now : WallTime) (n : Nat) :
    candidate target now n =
      target.parent.child (target.stem ++ "_" ++ now.suffix ++ Text.ofString (candidateNumber n) ++ target.suffix) := rfl

theorem candidate_isPart (h : target.Proper) (now : WallTime) (n : Nat) :
    (target.stem ++ "_" ++ now.suffix ++ Text.ofString (candidateNumber n) ++ target.suffix).IsPart ∧
      target.stem ++ "_" ++ now.suffix ++ Text.ofString (candidateNumber n) ++ target.suffix ≠ Path.up := by
  have hnumber : '/' ∉ (candidateNumber n).toList := by
    unfold candidateNumber
    split
    · decide
    · simp [notMem_toDigits (c := '/') (by decide)]
  have hbar : '/'.toNat ∉ (Text.ofString "_").codes := by decide
  refine Text.isPart_of_mem (c := '_') ?_ (by decide) ?_
  · simp only [Text.codes_append, List.mem_append]
    exact .inl (.inl (.inl (.inr (by decide))))
  · simp only [Text.codes_append, List.mem_append, not_or]
    exact ⟨⟨⟨⟨h.slash_notMem_stem, hbar⟩, Text.slash_notMem_ofString now.slash_notMem_suffix⟩,
      Text.slash_notMem_ofString hnumber⟩, h.slash_notMem_suffix⟩

theorem settled_candidate (h : target.Settled) (now : WallTime) (n : Nat) : (candidate target now n).Settled := by
  obtain ⟨hpart, hup⟩ := candidate_isPart h.proper now n
  exact h.parent.child hpart hup

/-- A candidate lies in the directory of its target. -/
theorem parent_candidate (h : target.Settled) (now : WallTime) (n : Nat) :
    (candidate target now n).parent = target.parent := by
  rw [candidate_eq, Path.child_of_isPart (candidate_isPart h.proper now n).1]
  simp [Path.parent]

/-- Different candidates are different places. -/
theorem place_candidate_injective (h : target.Settled) (now : WallTime) (cwd : Loc) :
    Function.Injective fun n => (candidate target now n).place cwd := by
  intro m n (heq : (candidate target now m).place cwd = (candidate target now n).place cwd)
  have hplace (k : Nat) := candidate_isPart h.proper now k
  rw [candidate_eq, candidate_eq, h.parent.place_child (hplace m).1 (hplace m).2,
    h.parent.place_child (hplace n).1 (hplace n).2] at heq
  exact candidateNumber_injective (Text.storedName_cancel (List.singleton_inj.mp (List.append_cancel_left heq)))

theorem get?_ne_none_of_pathExists {p : Path} (hp : p.Settled) (h : d.pathExists cwd p = .ok true) :
    d.get? (p.place cwd) ≠ none := by
  unfold Disk.pathExists at h
  cases hfind : d.find cwd p with
  | error e => rw [hfind] at h; cases h
  | ok entry =>
    rw [hfind] at h
    obtain ⟨e, rfl⟩ := Option.isSome_iff_exists.mp (Except.ok.inj h)
    obtain ⟨l, hl, he⟩ := Disk.stat_eq_ok_iff.mp (Disk.find_eq_some_iff.mp hfind)
    rw [← ((Disk.locate_eq_ok_iff hp).mp hl).1, he]
    simp

theorem freeNameFrom_of_taken {n : Nat} (h : d.pathExists cwd (candidate target now n) = .ok true) (tries : Nat) :
    freeNameFrom d cwd target now n (tries + 1) = freeNameFrom d cwd target now (n + 1) tries := by
  conv_lhs => unfold freeNameFrom
  rw [h]

theorem freeNameFrom_of_free {n : Nat} (h : d.pathExists cwd (candidate target now n) ≠ .ok true) (tries : Nat) :
    freeNameFrom d cwd target now n (tries + 1) =
      (d.pathExists cwd (candidate target now n)).map fun _ => candidate target now n := by
  unfold freeNameFrom
  cases hthere : d.pathExists cwd (candidate target now n) with
  | error e => rfl
  | ok there =>
    cases there with
    | false => rfl
    | true => exact absurd hthere h

theorem freeNameFrom_eq {n k tries : Nat} (htries : k < tries)
    (htaken : ∀ m < k, d.pathExists cwd (candidate target now (n + m)) = .ok true)
    (hfree : d.pathExists cwd (candidate target now (n + k)) ≠ .ok true) :
    freeNameFrom d cwd target now n tries =
      (d.pathExists cwd (candidate target now (n + k))).map fun _ => candidate target now (n + k) := by
  induction k generalizing n tries with
  | zero =>
    obtain ⟨tries, rfl⟩ : ∃ t, tries = t + 1 := ⟨tries - 1, by omega⟩
    rw [Nat.add_zero] at hfree ⊢
    exact freeNameFrom_of_free hfree tries
  | succ k ih =>
    obtain ⟨tries, rfl⟩ : ∃ t, tries = t + 1 := ⟨tries - 1, by omega⟩
    have hshift (m : Nat) : n + (m + 1) = n + 1 + m := by omega
    have hfirst := htaken 0 (Nat.succ_pos k)
    rw [Nat.add_zero] at hfirst
    have hrest : ∀ m < k, d.pathExists cwd (candidate target now (n + 1 + m)) = .ok true := by
      intro m hm
      rw [← hshift]
      exact htaken (m + 1) (Nat.succ_lt_succ hm)
    rw [hshift] at hfree ⊢
    rw [freeNameFrom_of_taken hfirst]
    exact ih (Nat.lt_of_succ_lt_succ htries) hrest hfree

/-- The search for a free name ends at the first candidate that is not taken. -/
theorem freeName_eq (h : target.Settled) (d : Disk) (cwd : Loc) (now : WallTime) :
    ∃ n ≤ d.entries.length,
      (∀ m < n, d.pathExists cwd (candidate target now m) = .ok true) ∧
        d.pathExists cwd (candidate target now n) ≠ .ok true ∧
        freeName d cwd target now = (d.pathExists cwd (candidate target now n)).map fun _ => candidate target now n := by
  -- of more candidates than entries, one is not taken
  have hend : ∃ n, d.pathExists cwd (candidate target now n) ≠ .ok true ∧ n ≤ d.entries.length := by
    obtain ⟨n, hn, hfree⟩ := exists_notMem_of_injective (place_candidate_injective h now cwd) (d.entries.map Prod.fst)
    rw [List.length_map] at hn
    refine ⟨n, fun hexists => hfree ?_, hn⟩
    obtain ⟨e, he⟩ := Option.ne_none_iff_exists'.mp (get?_ne_none_of_pathExists (settled_candidate h now n) hexists)
    refine Disk.mem_entries_of_get? he ?_
    rw [(settled_candidate h now n).place_eq, candidate_eq, Path.child_of_isPart (candidate_isPart h.proper now n).1]
    simp
  classical
  have hfirst := Nat.find_spec hend
  have htaken : ∀ m < Nat.find hend, d.pathExists cwd (candidate target now m) = .ok true := by
    intro m hm
    by_contra hne
    exact Nat.find_min hend hm ⟨hne, by omega⟩
  refine ⟨Nat.find hend, hfirst.2, htaken, hfirst.1, ?_⟩
  generalize Nat.find hend = n at hfirst htaken
  have hsearch := freeNameFrom_eq (n := 0) (k := n) (Nat.lt_succ_of_le hfirst.2)
    (fun m hm => (Nat.zero_add m).symm ▸ htaken m hm) ((Nat.zero_add n).symm ▸ hfirst.1)
  rwa [Nat.zero_add] at hsearch

end Writer

end JsonnetLocals
