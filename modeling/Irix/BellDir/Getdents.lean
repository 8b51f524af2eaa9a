import Irix.BellDir.Lookup
import Mathlib.Algebra.Order.BigOperators.Group.List
import Mathlib.Data.List.TakeWhile

/-! # Listing a directory

A listing is made by calls with buffers of any size, each of which goes on
where the one before stopped.  An entry that does not fit is put back, and the
offset is told from what is left in the stream.
-/

namespace Irix.BellDir

open ExtentFs (Errno)

/-- `MAXBUFSIZE` -/
abbrev maxbufsize : Int := 4096

/-- `struct dirent`, its name without the terminator. -/
structure Dirent where
  dIno : Nat
  dOff : Int
  dReclen : Nat
  dName : List UInt8
  deriving Repr, DecidableEq

/-- `DIRENTSIZE` -/
def direntsize (namlen : Nat) : Nat := (10 + namlen + 4) / 4 * 4

/-- The length of a name, which need not be terminated. -/
def Direct.len (ep : Direct) : Nat :=
  if ep.dName.getD (dirsiz - 1) 0 = 0 then (cstr ep.dName).length else dirsiz

/-- What stops the loop of `bell_getdents`, with the bytes left in the buffer and what is in it. -/
structure Filled (σ : Type) where
  dir : Dirstream σ
  bytesleftinbuf : Int
  recs : List Dirent
  tooSmall : Bool

/-- `u.u_error` -/
inductive Uerror where
  | EINVAL
  | EFAULT
  | dir (e : Errno)
  deriving Repr, DecidableEq

/-- How a call ends: as the value returned, with an error number or with the records copied out and
    the offset left in `u.u_offset`. -/
inductive Getdents where
  | failed (ret : Int) (uError : Option Uerror)
  | returned (ret : Int) (recs : List Dirent) (uOffset : Int)
  deriving Repr, DecidableEq

/-- The buffer of a call: its size, whether it is in the kernel, and whether a `copyout` to it
    faults. -/
structure Request where
  bufsize : Int
  kernel : Bool
  faults : Bool

section Code

variable {σ : Type} (fsBmap : FsBmap σ) (ents : List Direct)

/-- The loop of `bell_getdents`. -/
def getdentsLoop (bufsize : Int) : (fuel : Nat) → Dirstream σ → (bytesleftinbuf : Int) →
    List Dirent → Option (Filled σ)
  | 0, _, _, _ => none
  | fuel + 1, dir, bytesleftinbuf, recs =>
      match getdent fsBmap ents (dir.count.toNat + 2) dir with
      | none => none
      | some (dir, none) => some ⟨dir, bytesleftinbuf, recs, false⟩
      | some (dir, some ep) =>
          if ep.dIno = 0 then getdentsLoop bufsize fuel dir bytesleftinbuf recs
          else
            let reclen := direntsize ep.len
            if bytesleftinbuf < reclen then
              some ⟨ungetdent dir, bytesleftinbuf, recs, bytesleftinbuf = bufsize⟩
            else
              getdentsLoop bufsize fuel dir (bytesleftinbuf - reclen)
                (recs ++ [⟨ep.dIno, telldir dir, reclen, ep.dName.take ep.len⟩])

/-- What `bell_getdents` does after its loop. -/
def getdentsEnd (req : Request) (bufsize : Int) (filled : Filled σ) : Getdents :=
  match filled.dir.error with
  | some e => .failed (-1) (some (.dir e))
  | none =>
      if filled.tooSmall then .failed (-1) (some .EINVAL)
      else if bufsize < 0 then .failed bufsize none
      else
        let ret := bufsize - filled.bytesleftinbuf
        if 0 < ret && !req.kernel && req.faults then .failed (-1) (some .EFAULT)
        else .returned ret filled.recs (telldir filled.dir)

/-- Read dp's entries starting at u.u_offset and translate them into bufsize bytes worth of struct
    dirents. -/
def bellGetdents (fs : σ) (uOffset : Nat) (req : Request) : Option Getdents :=
  if uOffset % dentsize ≠ 0 then some (.failed (-1) (some .EINVAL))
  else
    let bufsize := if !req.kernel && maxbufsize < req.bufsize then maxbufsize else req.bufsize
    (getdentsLoop fsBmap ents bufsize (ents.length + 1)
      (opendir fs uOffset (iSize ents - uOffset)) bufsize []).map (getdentsEnd req bufsize)

end Code

/-! ## The records -/

/-- The record of the entry at place `i`, if it is in use. -/
def recordAt (ents : List Direct) (i : Nat) : Option Dirent :=
  let ep := ents.getD i default
  if ep.dIno = 0 then none
  else some ⟨ep.dIno, dentsize * (i + 1 : Nat), direntsize ep.len, ep.dName.take ep.len⟩

/-- The records of the `n` entries from place `s` on. -/
def listing (ents : List Direct) (s n : Nat) : List Dirent :=
  (List.range' s n).filterMap (recordAt ents)

/-- The bytes of a list of records. -/
def bytesOf (recs : List Dirent) : Nat := (recs.map Dirent.dReclen).sum

section Records

variable {ents : List Direct} {s n : Nat}

/-- The name of a record is the whole name of its entry. -/
theorem cstr_record (ep : Direct) : cstr (ep.dName.take ep.len) = cstr ep.dName := by
  have length := ep.name_length
  rw [Direct.len]
  split
  next terminated =>
    have first : cstr ep.dName <+: ep.dName := List.takeWhile_prefix _
    rw [← List.prefix_iff_eq_take.mp first]
    exact List.takeWhile_idem
  next full => rw [← length, List.take_length]

theorem direntsize_pos (namlen : Nat) : 0 < direntsize namlen := by
  rw [direntsize]
  omega

theorem listing_append (s m n : Nat) :
    listing ents s (m + n) = listing ents s m ++ listing ents (s + m) n := by
  simp only [listing, ← List.range'_append_1, List.filterMap_append]

theorem bytesOf_append (recs recs' : List Dirent) :
    bytesOf (recs ++ recs') = bytesOf recs + bytesOf recs' := by
  simp only [bytesOf, List.map_append, List.sum_append]

/-- Only an empty listing has no bytes. -/
theorem bytesOf_listing (none : bytesOf (listing ents s n) = 0) : listing ents s n = [] := by
  apply List.eq_nil_iff_forall_not_mem.mpr
  intro rec mem
  have positive : 0 < rec.dReclen := by
    simp only [listing, List.mem_filterMap, recordAt, Option.ite_none_left_eq_some,
      Option.some.injEq] at mem
    obtain ⟨i, -, -, rfl⟩ := mem
    exact direntsize_pos _
  have le : rec.dReclen ≤ ((listing ents s n).map Dirent.dReclen).sum :=
    List.le_sum_of_mem (List.mem_map.mpr ⟨rec, mem, rfl⟩)
  rw [bytesOf] at none
  omega

theorem listing_one (ents : List Direct) (s : Nat) : listing ents s 1 = (recordAt ents s).toList := by
  rw [listing, List.range'_one, List.filterMap_cons, List.filterMap_nil]
  cases recordAt ents s <;> rfl

end Records

/-! ## One call -/

section Call

variable {σ : Type} {fsBmap : FsBmap σ} {ents : List Direct} {s k e : Nat} {dir : Dirstream σ}
  {bufsize bytes : Int} {recs : List Dirent}

/-- What the loop has done when it stops with `m` entries behind it: they are in the buffer, and the
    stream is at the next one, which does not fit. -/
structure Fills (ents : List Direct) (bufsize : Int) (start m : Nat) (bytes : Int)
    (recs : List Dirent) (filled : Filled σ) : Prop where
  error : filled.dir.error = none
  within : start + m ≤ ents.length
  recs : filled.recs = recs ++ listing ents start m
  left : filled.bytesleftinbuf = bytes - bytesOf (listing ents start m)
  tell : telldir filled.dir = dentsize * (start + m : Nat)
  stops : start + m < ents.length → filled.tooSmall = decide (filled.bytesleftinbuf = bufsize)

theorem getdentsLoop_spec (windows : Windows fsBmap ents) (start : s ≤ ents.length) {fuel : Nat}
    (inside : s + k ≤ ents.length) (enough : ents.length - (s + k) < fuel)
    (reading : Reading ents s (ents.length - s) k e dir) (low : dir.offset ≤ iSize ents) :
    ∃ filled m, getdentsLoop fsBmap ents bufsize fuel dir bytes recs = some filled ∧
      Fills ents bufsize (s + k) m bytes recs filled := by
  induction fuel generalizing k e dir bytes recs with
  | zero => exact absurd enough (Nat.not_lt_zero _)
  | succ fuel ih =>
      rw [getdentsLoop]
      rcases Nat.eq_or_lt_of_le inside with last | more
      · -- the end of the directory
        obtain rfl : k = ents.length - s := by omega
        rw [getdent_end reading]
        have tell := telldir_eq reading (by omega) low
        have none : listing ents (s + (ents.length - s)) 0 = [] := rfl
        have entries := reading.entries
        have total := reading.total
        refine ⟨_, 0, rfl, reading.error, by omega, by rw [none, List.append_nil], ?_, ?_, ?_⟩
        · rw [none]
          exact (Int.sub_zero bytes).symm
        · obtain rfl : e = 0 := by omega
          have same : ({ dir with entries := 0 } : Dirstream σ) = dir := by
            rw [show (0 : Int) = dir.entries from entries.symm]
          rw [same]
          exact tell
        · omega
      · obtain ⟨dir', e', got, reading', pos⟩ :=
          getdent_next windows start (Nat.sub_le _ _) (by omega) reading dir.count.toNat
        have here : place ents.length s k = s + k := if_pos more
        have low' := offset_le reading'
        have tell := telldir_eq reading' (by omega) low'
        have step : ∀ m, listing ents (s + k) (m + 1) =
            listing ents (s + k) 1 ++ listing ents (s + (k + 1)) m := by
          intro m
          rw [Nat.add_comm m, listing_append, Nat.add_assoc]
        rw [got, here]
        dsimp only
        by_cases free : (ents.getD (s + k) default).dIno = 0
        · have one : listing ents (s + k) 1 = [] := by
            simp only [listing_one, recordAt, if_pos free, Option.toList_none]
          obtain ⟨filled, m, loops, fills⟩ := ih more (by omega) reading' low'
          rw [if_pos free, loops]
          have all := step m
          rw [one, List.nil_append] at all
          refine ⟨filled, m + 1, rfl, fills.error, ?_, ?_, ?_, ?_, ?_⟩
          · have within := fills.within
            omega
          · rw [all, fills.recs]
          · rw [all, fills.left]
          · rw [fills.tell]
            congr 2
            omega
          · intro later
            exact fills.stops (by omega)
        · rw [if_neg free]
          by_cases full : bytes < direntsize (ents.getD (s + k) default).len
          · -- the entry is put back
            rw [if_pos full]
            refine ⟨_, 0, rfl, reading'.error, by omega, (List.append_nil _).symm, ?_, ?_, fun _ => rfl⟩
            · exact (Int.sub_zero bytes).symm
            · rw [telldir] at tell
              simp only [telldir, ungetdent, dentsize] at tell ⊢
              omega
          · have one : listing ents (s + k) 1 = [⟨(ents.getD (s + k) default).dIno, telldir dir',
                direntsize (ents.getD (s + k) default).len,
                (ents.getD (s + k) default).dName.take (ents.getD (s + k) default).len⟩] := by
              simp only [listing_one, recordAt, if_neg free, Option.toList_some, tell]
              rfl
            have size : (bytesOf (listing ents (s + k) 1) : Int) =
                direntsize (ents.getD (s + k) default).len := by
              simp only [one, bytesOf, List.map_cons, List.map_nil, List.sum_singleton]
            obtain ⟨filled, m, loops, fills⟩ := @ih (k + 1) e' dir'
              (bytes - direntsize (ents.getD (s + k) default).len) (recs ++ listing ents (s + k) 1)
              more (by omega) reading' low'
            rw [if_neg full, ← one, loops]
            refine ⟨filled, m + 1, rfl, fills.error, ?_, ?_, ?_, ?_, ?_⟩
            · have within := fills.within
              omega
            · rw [step, fills.recs, List.append_assoc]
            · have left := fills.left
              rw [step, bytesOf_append, left, Nat.cast_add, size]
              exact sub_sub ..
            · rw [fills.tell]
              congr 2
              omega
            · intro later
              exact fills.stops (by omega)

/-- A call that starts at an entry, or at the end, comes back; and if it does so with records,
    these are the next ones, `u.u_offset` is behind them, and none are left if there are none. -/
theorem bellGetdents_spec (windows : Windows fsBmap ents) (start : s ≤ ents.length) (fs : σ)
    (req : Request) :
    ∃ out, bellGetdents fsBmap ents fs (dentsize * s) req = some out ∧
      ∀ ret recs uOffset, out = .returned ret recs uOffset →
        ∃ m, s + m ≤ ents.length ∧ recs = listing ents s m ∧
          uOffset = dentsize * (s + m : Nat) ∧ (ret = 0 → s + m = ents.length ∧ recs = []) := by
  have aligned : ¬ dentsize * s % dentsize ≠ 0 := by
    simp only [dentsize]
    omega
  have rest : (iSize ents : Int) - (dentsize * s : Nat) = (dentsize * (ents.length - s) : Nat) := by
    simp only [iSize, dentsize]
    omega
  have reading : Reading ents (min s ents.length) (ents.length - s) 0 0 _ :=
    reading_opendir fs s (ents.length - s)
  rw [Nat.min_eq_left start] at reading
  obtain ⟨filled, m, loops, fills⟩ := @getdentsLoop_spec σ fsBmap ents s 0 0
    (opendir fs (dentsize * s) (dentsize * (ents.length - s) : Nat))
    (if !req.kernel && maxbufsize < req.bufsize then maxbufsize else req.bufsize)
    (if !req.kernel && maxbufsize < req.bufsize then maxbufsize else req.bufsize) []
    windows start (ents.length + 1) start (by omega) reading (Nat.mul_le_mul_left _ start)
  have returns : bellGetdents fsBmap ents fs (dentsize * s) req = some (getdentsEnd req
      (if !req.kernel && maxbufsize < req.bufsize then maxbufsize else req.bufsize) filled) := by
    rw [bellGetdents, if_neg aligned]
    dsimp only
    rw [rest, loops]
    rfl
  refine ⟨_, returns, ?_⟩
  rw [getdentsEnd, fills.error]
  generalize (if !req.kernel && maxbufsize < req.bufsize then maxbufsize else req.bufsize) = bufsize
    at fills ⊢
  intro ret recs uOffset returned
  dsimp only at returned
  split at returned
  next => cases returned
  next roomy =>
    split at returned
    next => cases returned
    next =>
      split at returned
      next => cases returned
      next =>
        cases returned
        have within := fills.within
        have listed := fills.recs
        have tell := fills.tell
        have left := fills.left
        simp only [List.nil_append, Nat.add_zero] at within listed tell left
        refine ⟨m, within, listed, tell, fun zero => ?_⟩
        have all : s + m = ents.length := by
          by_contra more
          have stops := fills.stops (by omega)
          rw [stops] at roomy
          exact roomy (decide_eq_true (by omega))
        refine ⟨all, ?_⟩
        rw [listed]
        exact bytesOf_listing (by omega)

end Call

/-! ## A listing -/

/-- The records of a sequence of calls from an offset on, each at the offset the one before left,
    until one returns 0. -/
inductive Lists {σ : Type} (fsBmap : FsBmap σ) (ents : List Direct) : Nat → List Dirent → Prop
  | last {uOffset : Nat} {uOffset' : Int} {recs : List Dirent} (fs : σ) (req : Request) :
      bellGetdents fsBmap ents fs uOffset req = some (.returned 0 recs uOffset') →
      Lists fsBmap ents uOffset recs
  | more {uOffset uOffset' : Nat} {ret : Int} {recs later : List Dirent} (fs : σ) (req : Request) :
      bellGetdents fsBmap ents fs uOffset req = some (.returned ret recs uOffset') →
      ret ≠ 0 → Lists fsBmap ents uOffset' later → Lists fsBmap ents uOffset (recs ++ later)

/-- Every call comes back, and every sequence of calls lists the entries in use from its start on,
    each once and with its whole name. -/
theorem getdents_exact {σ : Type} (fsBmap : FsBmap σ) (ents : List Direct)
    (windows : Windows fsBmap ents) (s : Nat) (start : s ≤ ents.length) :
    (∀ fs req, ∃ out, bellGetdents fsBmap ents fs (dentsize * s) req = some out) ∧
      (∀ recs, Lists fsBmap ents (dentsize * s) recs → recs = listing ents s (ents.length - s)) ∧
      ∀ ep : Direct, cstr (ep.dName.take ep.len) = cstr ep.dName := by
  refine ⟨fun fs req => ?_, fun recs lists => ?_, cstr_record⟩
  · obtain ⟨out, returns, -⟩ := bellGetdents_spec windows start fs req
    exact ⟨out, returns⟩
  · generalize begins : dentsize * s = uOffset at lists
    induction lists generalizing s with
    | last fs req returns =>
        subst begins
        obtain ⟨out, returns', spec⟩ := bellGetdents_spec windows start fs req
        rw [returns, Option.some.injEq] at returns'
        obtain ⟨m, -, listed, -, done⟩ := spec _ _ _ returns'.symm
        obtain ⟨all, none⟩ := done rfl
        rw [listed, show m = ents.length - s by omega]
    | more fs req returns some rest ih =>
        subst begins
        obtain ⟨out, returns', spec⟩ := bellGetdents_spec windows start fs req
        rw [returns, Option.some.injEq] at returns'
        obtain ⟨m, within, listed, offset, -⟩ := spec _ _ _ returns'.symm
        have tail := ih (s + m) within (by omega)
        have parts : ents.length - s = m + (ents.length - (s + m)) := by omega
        rw [tail, listed, parts, listing_append]

/-- Four calls, the first two with buffers for one entry and the last one at the end. -/
theorem sparse_lists : ∃ recs, Lists (efsBmap 4 sparseInode) sparse (dentsize * 0) recs ∧
    recs.map Dirent.dIno = [5, 2, 7, 9] := by
  have first : bellGetdents (efsBmap 4 sparseInode) sparse (0, 0) (dentsize * 0) ⟨12, false, false⟩ =
      some (.returned 12 [⟨5, 16, 12, [46]⟩] (16 : Nat)) := by
    decide +kernel
  have second : bellGetdents (efsBmap 4 sparseInode) sparse (0, 0) 16 ⟨16, false, false⟩ =
      some (.returned 16 [⟨2, 32, 16, [46, 46]⟩] (512 : Nat)) := by
    decide +kernel
  have third : bellGetdents (efsBmap 4 sparseInode) sparse (0, 0) 512 ⟨512, true, false⟩ =
      some (.returned 40 [⟨7, 528, 28, List.replicate 14 98⟩, ⟨9, 544, 12, [97]⟩] (544 : Nat)) := by
    decide +kernel
  have fourth : bellGetdents (efsBmap 4 sparseInode) sparse (0, 0) 544 ⟨512, true, false⟩ =
      some (.returned 0 [] (544 : Nat)) := by
    decide +kernel
  refine ⟨_, .more _ _ first (by decide) (.more _ _ second (by decide)
    (.more _ _ third (by decide) (.last _ _ fourth))), by decide⟩

/-- What these calls list are the entries in use. -/
theorem getdents_exact_sparse :
    ∃ recs, Lists (efsBmap 4 sparseInode) sparse (dentsize * 0) recs ∧
      recs = listing sparse 0 sparse.length ∧ recs.map Dirent.dIno = [5, 2, 7, 9] := by
  obtain ⟨recs, lists, inos⟩ := sparse_lists
  obtain ⟨-, exact_, -⟩ := getdents_exact (efsBmap 4 sparseInode) sparse sparse_windows 0 (Nat.zero_le _)
  exact ⟨recs, lists, exact_ recs lists, inos⟩

end Irix.BellDir
