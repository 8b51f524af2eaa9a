import Irix.BellDir.Stream

/-! # Looking up a name

A lookup starts wherever the last one ended and reads once around the
directory.  What it finds does not depend on where it starts: an entry with the
name, or else the first free slot.
-/

namespace Irix.BellDir

open ExtentFs (Errno Inode)

/-- `strncmp`, as far as its sign matters -/
def strncmp : Nat → List UInt8 → List UInt8 → Int
  | 0, _, _ => 0
  | n + 1, s1, s2 =>
      let a := s1.headD 0
      let b := s2.headD 0
      if a ≠ b then a.toNat - b.toNat
      else if a = 0 then 0
      else strncmp n s1.tail s2.tail

/-- The characters of a string up to its terminator. -/
def cstr (s : List UInt8) : List UInt8 := s.takeWhile (· ≠ 0)

theorem take_cstr (n : Nat) (s : List UInt8) : (cstr s).take (n + 1) =
    if s.headD 0 = 0 then [] else s.headD 0 :: (cstr s.tail).take n := by
  cases s with
  | nil => rfl
  | cons a s => by_cases zero : a = 0 <;> simp [cstr, zero]

/-- Strings compare equal if their first characters are the same. -/
theorem strncmp_eq_zero (n : Nat) (s1 s2 : List UInt8) :
    strncmp n s1 s2 = 0 ↔ (cstr s1).take n = (cstr s2).take n := by
  induction n generalizing s1 s2 with
  | zero => simp [strncmp]
  | succ n ih =>
      simp only [strncmp, take_cstr]
      by_cases same : s1.headD 0 = s2.headD 0
      · rw [same]
        by_cases zero : s2.headD 0 = 0
        · simp only [zero, ne_eq, not_true_eq_false, if_false, if_true]
        · simp only [zero, ne_eq, not_true_eq_false, if_false, ih, List.cons.injEq, true_and]
      · have apart : ((s1.headD 0).toNat : Int) - (s2.headD 0).toNat ≠ 0 := by
          intro none
          exact same (UInt8.toNat_inj.mp (by omega))
        simp only [ne_eq, same, not_false_eq_true, if_true, apart, false_iff]
        intro equal
        split at equal
        all_goals split at equal
        all_goals simp_all

/-- An entry in use with the name. -/
def Direct.Named (name : List UInt8) (ep : Direct) : Prop :=
  ep.dIno ≠ 0 ∧ (cstr ep.dName).take dirsiz = (cstr name).take dirsiz

/-- What `bell_lookup` leaves in `*dlr` and returns, and the entries it has read. -/
structure Lookup (σ : Type) where
  fs : σ
  dlrInum : Nat
  dlrOffset : Int
  error : Option Errno
  reads : List Direct

section Code

variable {σ : Type} (fsBmap : FsBmap σ) (ents : List Direct) (name : List UInt8)

/-- The loop of `bell_lookup` over the directory's entries. -/
def lookupLoop : (fuel : Nat) → Dirstream σ → (freepos : Int) → (reads : List Direct) →
    Option (Lookup σ)
  | 0, _, _, _ => none
  | fuel + 1, ds, freepos, reads =>
      match getdent fsBmap ents (ds.count.toNat + 2) ds with
      | none => none
      | some (ds, none) => some ⟨ds.fs, 0, freepos, ds.error, reads⟩
      | some (ds, some ep) =>
          let reads := reads ++ [ep]
          if ep.dIno = 0 then
            let pos := lastdentpos ds
            lookupLoop fuel ds (if pos < freepos then pos else freepos) reads
          else if strncmp dirsiz ep.dName name = 0 then
            some ⟨ds.fs, ep.dIno, lastdentpos ds, none, reads⟩
          else lookupLoop fuel ds freepos reads

/-- Look for an entry with the given component name. -/
def bellLookup (fs : σ) (startpos : Nat) : Option (Lookup σ) :=
  let startpos := dentsize * (startpos / dentsize)
  lookupLoop fsBmap ents name (ents.length + 1) (opendir fs startpos (iSize ents)) (iSize ents) []

end Code

/-! ## Once around -/

/-- The entries in the order in which a stream from entry `s` on reads them. -/
def around (ents : List Direct) (s : Nat) : List Direct := ents.drop s ++ ents.take s

/-- The first free slot among those of `places`, or the end of the directory. -/
structure FirstFree (ents : List Direct) (places : List Nat) (freepos : Int) : Prop where
  least : ∀ i ∈ places, (ents.getD i default).dIno = 0 → freepos ≤ dentsize * i
  slot : freepos = iSize ents ∨
    ∃ i ∈ places, (ents.getD i default).dIno = 0 ∧ freepos = dentsize * i

section Around

variable {ents : List Direct} {s k : Nat}

theorem around_length (start : s ≤ ents.length) : (around ents s).length = ents.length := by
  simp only [around, List.length_append, List.length_drop, List.length_take]
  omega

theorem around_getElem? (start : s ≤ ents.length) (inside : k < ents.length) :
    (around ents s)[k]? = some (ents.getD (place ents.length s k) default) := by
  have below : place ents.length s k < ents.length := by
    rw [place]
    split <;> omega
  rw [List.getD_eq_getElem?_getD, List.getElem?_eq_getElem below, Option.getD_some,
    ← List.getElem?_eq_getElem below, around, place]
  by_cases first : s + k < ents.length
  · rw [if_pos first, List.getElem?_append_left (by rw [List.length_drop]; omega), List.getElem?_drop]
  · rw [if_neg first, List.getElem?_append_right (by rw [List.length_drop]; omega),
      List.length_drop, List.getElem?_take_of_lt (by omega)]
    congr 1
    omega

theorem around_take_succ (start : s ≤ ents.length) (inside : k < ents.length) :
    (around ents s).take (k + 1) =
      (around ents s).take k ++ [ents.getD (place ents.length s k) default] := by
  rw [List.take_add_one, around_getElem? start inside]
  rfl

end Around

/-! ## The search -/

section Search

variable {σ : Type} {fsBmap : FsBmap σ} {ents : List Direct} {name : List UInt8} {s k e : Nat}
  {ds : Dirstream σ} {freepos : Int}

theorem FirstFree.pass (free : FirstFree ents ((List.range k).map (place ents.length s)) freepos)
    (used : (ents.getD (place ents.length s k) default).dIno ≠ 0) :
    FirstFree ents ((List.range (k + 1)).map (place ents.length s)) freepos := by
  rw [List.range_succ, List.map_append]
  constructor
  · intro i mem none
    rcases List.mem_append.mp mem with before | here
    · exact free.least i before none
    · rw [List.map_singleton, List.mem_singleton] at here
      rw [here] at none
      exact absurd none used
  · rcases free.slot with all | ⟨i, mem, rest⟩
    · exact Or.inl all
    · exact Or.inr ⟨i, List.mem_append_left _ mem, rest⟩

theorem FirstFree.take (free : FirstFree ents ((List.range k).map (place ents.length s)) freepos)
    (none : (ents.getD (place ents.length s k) default).dIno = 0) :
    FirstFree ents ((List.range (k + 1)).map (place ents.length s))
      (if (dentsize * place ents.length s k : Int) < freepos then dentsize * place ents.length s k
        else freepos) := by
  rw [List.range_succ, List.map_append, List.map_singleton]
  constructor
  · intro i mem free_
    rcases List.mem_append.mp mem with before | here
    · have le := free.least i before free_
      split <;> omega
    · rw [List.mem_singleton] at here
      rw [here]
      split <;> omega
  · split
    · exact Or.inr ⟨_, List.mem_append_right _ (List.mem_singleton_self _), none, rfl⟩
    · rcases free.slot with all | ⟨i, mem, rest⟩
      · exact Or.inl all
      · exact Or.inr ⟨i, List.mem_append_left _ mem, rest⟩

/-- What a lookup comes to. -/
structure LookedUp {σ : Type} (ents : List Direct) (name : List UInt8) (s : Nat) (r : Lookup σ) : Prop where
  error : r.error = none
  /-- Every entry at most once, in order around the directory, and none after one with the name. -/
  reads : ∃ k ≤ ents.length, r.reads = (around ents s).take k ∧
    ∀ ep ∈ (around ents s).take (k - 1), ¬ ep.Named name
  found : (∃ ep ∈ ents, ep.Named name) → r.dlrInum ≠ 0 ∧
    ∃ i, ∃ inside : i < ents.length, ents[i].Named name ∧ r.dlrInum = ents[i].dIno ∧
      r.dlrOffset = dentsize * i
  missing : (¬ ∃ ep ∈ ents, ep.Named name) → r.dlrInum = 0 ∧ r.reads = around ents s ∧
    FirstFree ents (List.range ents.length) r.dlrOffset

theorem mem_around {ep : Direct} : ep ∈ around ents s ↔ ep ∈ ents := by
  rw [around, List.mem_append, or_comm, ← List.mem_append, List.take_append_drop]

/-- The places around the directory are all its places. -/
theorem place_mem (start : s ≤ ents.length) {i : Nat} (inside : i < ents.length) :
    i ∈ (List.range ents.length).map (place ents.length s) := by
  simp only [List.mem_map, List.mem_range, place]
  rcases Nat.lt_or_ge i s with before | behind
  · refine ⟨i + ents.length - s, by omega, ?_⟩
    rw [if_neg (by omega)]
    omega
  · refine ⟨i - s, by omega, ?_⟩
    rw [if_pos (by omega)]
    omega

theorem FirstFree.whole (start : s ≤ ents.length)
    (free : FirstFree ents ((List.range ents.length).map (place ents.length s)) freepos) :
    FirstFree ents (List.range ents.length) freepos where
  least i mem := free.least i (place_mem start (List.mem_range.mp mem))
  slot := by
    rcases free.slot with all | ⟨i, mem, rest⟩
    · exact Or.inl all
    · simp only [List.mem_map, List.mem_range] at mem
      obtain ⟨k, inside, rfl⟩ := mem
      refine Or.inr ⟨_, List.mem_range.mpr ?_, rest⟩
      rw [place]
      split <;> omega

theorem lookupLoop_spec (windows : Windows fsBmap ents) (start : s ≤ ents.length) {fuel : Nat}
    (inside : k ≤ ents.length) (enough : ents.length - k < fuel)
    (reading : Reading ents s ents.length k e ds)
    (others : ∀ ep ∈ (around ents s).take k, ¬ ep.Named name)
    (free : FirstFree ents ((List.range k).map (place ents.length s)) freepos) :
    ∃ r, lookupLoop fsBmap ents name fuel ds freepos ((around ents s).take k) = some r ∧
      LookedUp ents name s r := by
  induction fuel generalizing k e ds freepos with
  | zero => exact absurd enough (Nat.not_lt_zero _)
  | succ fuel ih =>
      rw [lookupLoop]
      rcases Nat.eq_or_lt_of_le inside with rfl | more
      · -- all entries are read
        rw [getdent_end reading]
        have all : (around ents s).take ents.length = around ents s := by
          rw [List.take_of_length_le (around_length start).le]
        rw [all] at others ⊢
        refine ⟨_, rfl, reading.error, ⟨ents.length, Nat.le_refl _, all.symm, ?_⟩, ?_, ?_⟩
        · intro ep mem
          exact others ep (List.mem_of_mem_take mem)
        · rintro ⟨ep, mem, named⟩
          exact absurd named (others ep (mem_around.mpr mem))
        · intro _
          exact ⟨rfl, rfl, free.whole start⟩
      · obtain ⟨ds', e', got, reading', pos⟩ :=
          getdent_next windows start (Nat.le_refl _) more reading ds.count.toNat
        have below : place ents.length s k < ents.length := by
          rw [place]
          split <;> omega
        have entry : ents.getD (place ents.length s k) default = ents[place ents.length s k] := by
          rw [List.getD_eq_getElem?_getD, List.getElem?_eq_getElem below]
          rfl
        have next := around_take_succ start more
        rw [got]
        simp only [← next]
        by_cases none : (ents.getD (place ents.length s k) default).dIno = 0
        · rw [if_pos none, pos]
          apply ih more (by omega) reading' ?_ (free.take none)
          rw [next]
          intro ep mem
          rcases List.mem_append.mp mem with before | here
          · exact others ep before
          · rw [List.mem_singleton] at here
            rw [here]
            exact fun named => named.1 none
        · rw [if_neg none]
          by_cases same : strncmp dirsiz (ents.getD (place ents.length s k) default).dName name = 0
          · rw [if_pos same]
            have hit : (ents.getD (place ents.length s k) default).Named name :=
              ⟨none, (strncmp_eq_zero _ _ _).mp same⟩
            refine ⟨_, rfl, rfl, ⟨k + 1, more, rfl, others⟩, ?_, ?_⟩
            · intro _
              refine ⟨none, place ents.length s k, below, ?_, ?_, pos⟩
              · rw [← entry]
                exact hit
              · rw [← entry]
            · intro missing
              refine absurd ⟨_, ?_, hit⟩ missing
              rw [entry]
              exact List.getElem_mem below
          · rw [if_neg same]
            apply ih more (by omega) reading' ?_ (free.pass none)
            rw [next]
            intro ep mem
            rcases List.mem_append.mp mem with before | here
            · exact others ep before
            · rw [List.mem_singleton] at here
              rw [here]
              exact fun named => same ((strncmp_eq_zero _ _ _).mpr named.2)

end Search

/-- A lookup from any offset on reads once around the directory, and finds an entry with the name
    if there is one, or else the first free slot. -/
theorem lookup_exact {σ : Type} (fsBmap : FsBmap σ) (ents : List Direct) (fs : σ)
    (name : List UInt8) (startpos : Nat) (windows : Windows fsBmap ents) :
    ∃ r, bellLookup fsBmap ents name fs startpos = some r ∧
      LookedUp ents name (min (startpos / dentsize) ents.length) r := by
  have start := Nat.min_le_right (startpos / dentsize) ents.length
  have reading : Reading ents (min (startpos / dentsize) ents.length) ents.length 0 0 _ :=
    reading_opendir fs (startpos / dentsize) ents.length
  have free : FirstFree ents
      ((List.range 0).map (place ents.length (min (startpos / dentsize) ents.length)))
      (iSize ents) :=
    ⟨fun i mem => absurd mem List.not_mem_nil, Or.inl rfl⟩
  exact lookupLoop_spec windows start (Nat.zero_le _) (by omega) reading
    (fun ep mem => absurd mem List.not_mem_nil) free

/-- The entries of a directory of two blocks, with free ones in the middle. -/
def sparse : List Direct :=
  [⟨5, 46 :: List.replicate 13 0, rfl⟩, ⟨2, 46 :: 46 :: List.replicate 12 0, rfl⟩] ++
    List.replicate 30 ⟨0, List.replicate 14 0, rfl⟩ ++
    [⟨7, List.replicate 14 98, rfl⟩, ⟨9, 97 :: List.replicate 13 0, rfl⟩]

/-- The inode of a directory with these entries. -/
def sparseInode : Inode :=
  { ExtentFs.oneBlock [⟨0, 70, 1, 0⟩, ⟨0, 90, 1, 1⟩] with iFtype := .ifdir, iSize := 544 }

theorem sparse_windows : Windows (efsBmap 4 sparseInode) sparse :=
  efs_windows (by decide) (by decide) (by decide) (by decide) (by decide)

/-- The name lies before the offset the lookup starts from. -/
theorem lookup_exact_sparse :
    ∃ r, bellLookup (efsBmap 4 sparseInode) sparse [46, 46] (0, 0) 512 = some r ∧
      LookedUp sparse [46, 46] (min (512 / dentsize) sparse.length) r :=
  lookup_exact (efsBmap 4 sparseInode) sparse (0, 0) [46, 46] 512 sparse_windows

end Irix.BellDir
