import Irix.ExtentFs.Window

/-! # Directory streams

A directory is read through windows of whatever size the block mapper hands
out, and a stream wraps at the end of the directory until it has read all of
it.  Positions are told from the offset behind the window and the number of
entries left in it.
-/

namespace Irix.BellDir

open ExtentFs (Errno Extent Inode Contig lengthOf short btobb btobbt bbtob)

/-- Characters of a name in an entry. -/
abbrev dirsiz : Nat := 14

/-- `sizeof(struct direct)` -/
abbrev dentsize : Nat := 16

/-- `struct direct` -/
structure Direct where
  dIno : Nat
  dName : List UInt8
  name_length : dName.length = dirsiz
  deriving Repr, DecidableEq

instance Direct.inhabited : Inhabited Direct := ⟨⟨0, List.replicate dirsiz 0, rfl⟩⟩

/-- `FS_BMAP` for reading and the `bread` of what it has mapped: how many bytes of the directory
    from `uOffset` on are in the buffer, or `none` for the end of the file. -/
abbrev FsBmap (σ : Type) := σ → (uOffset uCount : Nat) → σ × Except Errno (Option Nat)

/-- `struct dirstream`.  The directory inode is an argument of its own, and `next` an index into the
    entries of the buffer. -/
structure Dirstream (σ : Type) where
  fs : σ
  offset : Nat
  count : Int
  buffer : List Direct
  next : Nat
  entries : Int
  error : Option Errno

/-- `i_size` of a directory of these entries -/
def iSize (ents : List Direct) : Nat := dentsize * ents.length

section Code

variable {σ : Type} (fsBmap : FsBmap σ) (ents : List Direct)

/-- `OPENDIR` -/
def opendir (fs : σ) (off : Nat) (cnt : Int) : Dirstream σ := ⟨fs, off, cnt, [], 0, 0, none⟩

/-- Fill ds's buffer with entries from ds->offset through the end of file, end of logical block, or
    ds->offset + ds->count, whichever comes first. -/
def filldir (ds : Dirstream σ) : Dirstream σ × Bool :=
  if ds.count ≤ 0 then ({ ds with entries := 0 }, false)
  else
    let offset := if iSize ents ≤ ds.offset then 0 else ds.offset
    match fsBmap ds.fs offset ds.count.toNat with
    | (fs, .error e) => ({ ds with fs := fs, offset := offset, error := some e }, false)
    | (fs, .ok none) => ({ ds with fs := fs, offset := offset, entries := 0 }, false)
    | (fs, .ok (some newbytesinbuf)) =>
        ({ ds with
            fs := fs
            count := ds.count - newbytesinbuf
            offset := offset + newbytesinbuf
            buffer := (ents.drop (offset / dentsize)).take (newbytesinbuf / dentsize)
            next := 0
            entries := short (newbytesinbuf / dentsize : Nat) }, true)

/-- `GETDENT` with `getmoredents`; `none` if the windows never have a whole entry. -/
def getdent : (fuel : Nat) → Dirstream σ → Option (Dirstream σ × Option Direct)
  | 0, _ => none
  | fuel + 1, ds =>
      let ds := { ds with entries := ds.entries - 1 }
      if 0 ≤ ds.entries then
        some ({ ds with next := ds.next + 1 }, some (ds.buffer.getD ds.next default))
      else
        match filldir fsBmap ents ds with
        | (ds, false) => some (ds, none)
        | (ds, true) => getdent fuel ds

/-- `UNGETDENT` -/
def ungetdent (ds : Dirstream σ) : Dirstream σ :=
  { ds with entries := ds.entries + 1, next := ds.next - 1 }

/-- `LASTDENTPOS` -/
def lastdentpos (ds : Dirstream σ) : Int := ds.offset - dentsize * (ds.entries + 1)

/-- `TELLDIR` -/
def telldir (ds : Dirstream σ) : Int := ds.offset - dentsize * ds.entries

end Code

/-! ## What the block mapper does -/

/-- A mapper that hands out windows of whole entries within the directory, none longer than a
    logical block can be. -/
def Windows {σ : Type} (fsBmap : FsBmap σ) (ents : List Direct) : Prop :=
  ∀ fs o c, o < ents.length → 0 < c →
    ∃ fs' w, fsBmap fs (dentsize * o) (dentsize * c) = (fs', .ok (some (dentsize * w))) ∧
      0 < w ∧ w ≤ c ∧ o + w ≤ ents.length ∧ w < 32768

/-! ## Reading -/

/-- The entry a stream that started at entry `s` reads after `k` others. -/
def place (n s k : Nat) : Nat := if s + k < n then s + k else s + k - n

/-- `k` entries of `tot` have been got from a stream that started at entry `s`, and `e` more are in
    its buffer. -/
structure Reading {σ : Type} (ents : List Direct) (s tot k e : Nat) (ds : Dirstream σ) : Prop where
  entries : ds.entries = e
  total : k + e ≤ tot
  count : ds.count = dentsize * (tot - (k + e) : Nat)
  window : ∃ q, ds.offset = dentsize * q ∧ e ≤ q ∧
    ds.buffer.drop ds.next = (ents.drop (q - e)).take e ∧
    ((s + k + e ≤ ents.length ∧ q = s + k + e) ∨
      (ents.length < s + k + e ∧ q + ents.length = s + k + e ∧ q ≤ ents.length) ∨
      (e = 0 ∧ k = 0 ∧ s = ents.length ∧ ents.length ≤ q))
  error : ds.error = none

section Reading

variable {σ : Type} {fsBmap : FsBmap σ} {ents : List Direct} {s tot k e : Nat} {ds : Dirstream σ}

theorem reading_opendir (fs : σ) (s : Nat) (tot : Nat) :
    Reading ents (min s ents.length) tot 0 0 (opendir fs (dentsize * s) (dentsize * tot : Nat)) where
  entries := rfl
  total := Nat.zero_le _
  count := rfl
  window := by
    refine ⟨s, rfl, Nat.zero_le _, by simp [opendir], ?_⟩
    omega
  error := rfl

/-- A stream with an empty buffer and entries to come fills it. -/
theorem filldir_fills (windows : Windows fsBmap ents) (start : s ≤ ents.length)
    (fits : tot ≤ ents.length) (more : k < tot)
    (reading : Reading ents s tot k 0 { ds with entries := 0 }) :
    ∃ ds' w, filldir fsBmap ents ds = (ds', true) ∧ 0 < w ∧ Reading ents s tot k w ds' := by
  obtain ⟨q, offset, -, -, at_⟩ := reading.window
  have count : ds.count = dentsize * (tot - (k + 0) : Nat) := reading.count
  have offset : ds.offset = dentsize * q := offset
  -- the window starts at entry `o`
  obtain ⟨o, inside, wrapped, lap⟩ : ∃ o, o < ents.length ∧
      (if iSize ents ≤ ds.offset then 0 else ds.offset) = dentsize * o ∧
      ((s + k < ents.length ∧ o = s + k) ∨ (ents.length ≤ s + k ∧ o + ents.length = s + k)) := by
    rw [offset, iSize]
    rcases Nat.lt_or_ge q ents.length with before | behind
    · refine ⟨q, before, if_neg (by simp only [dentsize]; omega), by omega⟩
    · refine ⟨0, by omega, if_pos (Nat.mul_le_mul_left _ behind), by omega⟩
  obtain ⟨fs', w, maps, some, asked, within, small⟩ :=
    windows ds.fs o (tot - (k + 0)) inside (by omega)
  have positive : ¬ ds.count ≤ 0 := by
    rw [count]
    simp only [dentsize]
    omega
  have bytes : ds.count.toNat = dentsize * (tot - (k + 0)) := by
    rw [count]
    omega
  have unit : dentsize * o / dentsize = o ∧ dentsize * w / dentsize = w := by
    simp only [dentsize]
    omega
  have fills : filldir fsBmap ents ds = ({ ds with
      fs := fs'
      count := ds.count - (dentsize * w : Nat)
      offset := dentsize * o + dentsize * w
      buffer := (ents.drop (dentsize * o / dentsize)).take (dentsize * w / dentsize)
      next := 0
      entries := short (dentsize * w / dentsize : Nat) }, true) := by
    rw [filldir, if_neg positive]
    simp only [wrapped, bytes, maps]
  refine ⟨_, w, fills, some, ?_⟩
  · constructor
    case entries =>
      simp only [unit]
      exact ExtentFs.short_fits (by omega) (by omega)
    case total => omega
    case count =>
      simp only [count, dentsize]
      omega
    case error => exact reading.error
    case window =>
      refine ⟨o + w, by simp only [dentsize]; omega, by omega, ?_, by omega⟩
      simp only [unit, List.drop_zero, Nat.add_sub_cancel]

/-- Getting the next entry of the buffer. -/
theorem getdent_buffered (reading : Reading ents s tot k (e + 1) ds) (fuel : Nat) :
    ∃ ds', getdent fsBmap ents (fuel + 1) ds =
        some (ds', some (ents.getD (place ents.length s k) default)) ∧
      Reading ents s tot (k + 1) e ds' ∧
      lastdentpos ds' = dentsize * place ents.length s k := by
  obtain ⟨q, offset, inside, buffer, at_⟩ := reading.window
  have entries := reading.entries
  have here : q - (e + 1) = place ents.length s k := by
    rw [place]
    split <;> omega
  have below : place ents.length s k < ents.length := by
    rw [← here]
    omega
  have first : ds.buffer.getD ds.next default = ents.getD (place ents.length s k) default := by
    rw [List.getD_eq_getElem?_getD, List.getD_eq_getElem?_getD, ← Nat.add_zero ds.next,
      ← List.getElem?_drop, buffer, List.getElem?_take_of_lt (Nat.succ_pos e), List.getElem?_drop,
      here, Nat.add_zero]
  have more : (0 : Int) ≤ ds.entries - 1 := by omega
  have got : getdent fsBmap ents (fuel + 1) ds =
      some ({ ds with entries := ds.entries - 1, next := ds.next + 1 },
        some (ents.getD (place ents.length s k) default)) := by
    rw [getdent]
    simp only [if_pos more, first]
  refine ⟨_, got, ⟨?_, ?_, ?_, ?_, reading.error⟩, ?_⟩
  · simp only [entries]
    omega
  · have total := reading.total
    omega
  · rw [reading.count, Nat.add_right_comm, Nat.add_assoc]
  · refine ⟨q, offset, by omega, ?_, by omega⟩
    have later := congrArg (List.drop 1) buffer
    rw [List.drop_drop, List.drop_take, List.drop_drop, Nat.add_sub_cancel] at later
    rw [later, show q - (e + 1) + 1 = q - e by omega]
  · simp only [lastdentpos, offset, entries, ← here, dentsize]
    omega

/-- `GETDENT` gets the entries one after the other. -/
theorem getdent_next (windows : Windows fsBmap ents) (start : s ≤ ents.length)
    (fits : tot ≤ ents.length) (more : k < tot) (reading : Reading ents s tot k e ds) (fuel : Nat) :
    ∃ ds' e', getdent fsBmap ents (fuel + 2) ds =
        some (ds', some (ents.getD (place ents.length s k) default)) ∧
      Reading ents s tot (k + 1) e' ds' ∧
      lastdentpos ds' = dentsize * place ents.length s k := by
  cases e with
  | succ e =>
      obtain ⟨ds', got, rest⟩ := @getdent_buffered σ fsBmap ents s tot k e ds reading (fuel + 1)
      exact ⟨ds', e, got, rest⟩
  | zero =>
      have entries := reading.entries
      have none : ¬ (0 : Int) ≤ ds.entries - 1 := by omega
      obtain ⟨ds', w, fills, some, reading'⟩ := @filldir_fills σ fsBmap ents s tot k
        { ds with entries := ds.entries - 1 } windows start fits more
        ⟨rfl, reading.total, reading.count, reading.window, reading.error⟩
      obtain ⟨e', rfl⟩ : ∃ e', w = e' + 1 := ⟨w - 1, by omega⟩
      obtain ⟨ds'', got, rest⟩ := @getdent_buffered σ fsBmap ents s tot k e' ds' reading' fuel
      refine ⟨ds'', e', ?_, rest⟩
      rw [getdent]
      simp only [if_neg none, fills]
      exact got

/-- At the end there is nothing to get. -/
theorem getdent_end (reading : Reading ents s tot tot e ds) (fuel : Nat) :
    getdent fsBmap ents (fuel + 1) ds = some ({ ds with entries := 0 }, none) := by
  have total := reading.total
  have entries := reading.entries
  have none : ¬ (0 : Int) ≤ ds.entries - 1 := by omega
  have done : ds.count ≤ 0 := by
    rw [reading.count]
    simp only [dentsize]
    omega
  rw [getdent]
  simp only [if_neg none, filldir, if_pos done]

/-- Where a stream that does not wrap is. -/
theorem telldir_eq (reading : Reading ents s tot k e ds) (flat : s + tot ≤ ents.length)
    (low : ds.offset ≤ iSize ents) : telldir ds = dentsize * (s + k : Nat) := by
  obtain ⟨q, offset, inside, -, at_⟩ := reading.window
  have total := reading.total
  have entries := reading.entries
  rw [offset, iSize] at low
  simp only [telldir, offset, entries, dentsize] at low ⊢
  omega

/-- No stream stays behind the end of the directory. -/
theorem offset_le (reading : Reading ents s tot (k + 1) e ds) : ds.offset ≤ iSize ents := by
  obtain ⟨q, offset, inside, -, at_⟩ := reading.window
  rw [offset, iSize]
  apply Nat.mul_le_mul_left
  omega

end Reading

/-! ## The mapper of the extent filesystem -/

/-- `efs_bmap` as the mapper of a directory stream; its state is where the last read was. -/
def efsBmap (efsLbtobbshift : Nat) (ip : Inode) : FsBmap (Nat × Nat) := fun last uOffset uCount =>
  let (ip', b) := ExtentFs.efsBmapReadLb efsLbtobbshift
    { ip with ciLastbn := last.1, ciLastlen := last.2 } uOffset uCount
  ((ip'.ciLastbn, ip'.ciLastlen), b.map fun b => b.map ExtentFs.Bmap.uPbsize)

/-- The windows of a directory of whole entries whose extents hold all of it. -/
theorem efs_windows {shift : Nat} {ip : Inode} {ents : List Direct} (contig : Contig 0 ip.iiExtents)
    (positive : ∀ ex ∈ ip.iiExtents, 0 < ex.exLength) (size : ip.iSize = iSize ents)
    (held : btobb ip.iSize ≤ lengthOf ip.iiExtents) (lb : shift ≤ 7) :
    Windows (efsBmap shift ip) ents := by
  intro last o c inside some
  simp only [iSize, dentsize] at size ⊢
  have block : btobbt (16 * o) < lengthOf ip.iiExtents := by
    rw [btobb] at held
    rw [btobbt]
    omega
  obtain ⟨a, b, ex, bmap, maps, -, -, window⟩ := @ExtentFs.efsBmapReadLb_inside
    { ip with ciLastbn := last.1, ciLastlen := last.2 } shift (16 * o) (16 * c) contig positive
    (by rw [size]; omega) (by omega) block
  have logical : 1 <<< shift ≤ 2 ^ 7 := by
    rw [Nat.shiftLeft_eq, Nat.one_mul]
    exact Nat.pow_le_pow_right (by omega) lb
  have most := window.most
  have positive' := window.some
  have asked := window.asked
  have inFile := window.inFile
  have inBlocks := window.inBlocks
  have short_ := window.short
  have byte := window.byte
  dsimp only at most inFile
  rw [size] at most inFile
  simp only [bbtob] at most inBlocks byte
  obtain ⟨w, whole⟩ : ∃ w, bmap.uPbsize = 16 * w := ⟨bmap.uPbsize / 16, by omega⟩
  refine ⟨(a, b), w, ?_, by omega, by omega, by omega, by omega⟩
  simp only [efsBmap, maps, Except.map, Option.map_some, whole]

end Irix.BellDir
