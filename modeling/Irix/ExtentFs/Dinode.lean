import Irix.ExtentFs.Owners
import Irix.Lib.Scatter
import Mathlib.Data.List.ModifyLast

/-! # Inodes on the volume

`efs_iupdat` writes an inode out and `efs_iread` reads it back.  Extents that do
not fit in the disk inode go through the blocks of the indirect extents, which
are seen here as `b_exts`, arrays of extents.  The last extent is cut to the
size of the file on its way out.
-/

namespace Irix.ExtentFs

open Lib

/-- `struct efs_dinode`: the format bits of `di_mode`, and the fields that say
    where the file is. -/
structure Dinode where
  diFtype : Ftype
  diSize : Nat
  diNumextents : Nat
  diExtents : List Extent
  deriving Repr, DecidableEq

/-- The extents in a basic block. -/
abbrev extsPerbb : Nat := 64

/-- Trim the last extent to fit within the file's size, in its 8-bit field. -/
def trimmed (sizebb : Nat) (copy : Extent) : Extent :=
  if sizebb < copy.exOffset + copy.exLength then
    { copy with exLength := (((sizebb : Int) - copy.exOffset) % 256).toNat }
  else copy

/-- The loop of `efs_writeindir` over the indirect extents. -/
def writeindirLoop (sizebb : Nat) :
    (iex ex : List Extent) → Scatter.Store Extent → Scatter.Store Extent
  | [], _, disk => disk
  | ie :: iex, ex, disk =>
      let nb := ex.length * sizeofExtent
      let amount := min (bbtob ie.exLength) nb
      let copy := ex.take (amount / sizeofExtent)
      -- see if last extent needs to be trimmed
      let copy := if iex = [] then copy.modifyLast (trimmed sizebb) else copy
      writeindirLoop sizebb iex (ex.drop (amount / sizeofExtent))
        (Scatter.put disk (ie.exBn * extsPerbb) copy)

/-- write to disk the indirect extents for inode ip -/
def efsWriteindir (ip : Inode) (disk : Scatter.Store Extent) : Scatter.Store Extent :=
  writeindirLoop (btobb ip.iSize) ip.iiIndir ip.iiExtents disk

/-- Extents in a disk inode, the unused ones zero. -/
def padded (exts : List Extent) : List Extent :=
  exts ++ List.replicate (efsDirectextents - exts.length) Extent.null

/-- The number of indirect extents, in the first one's offset. -/
def setNumindirs (ne : Nat) : List Extent → List Extent
  | [] => []
  | ex :: exts => { ex with exOffset := ne } :: exts

/-- write out the given inode to the disk -/
def efsIupdat (ip : Inode) (disk : Scatter.Store Extent) (dp : Dinode) :
    Scatter.Store Extent × Dinode :=
  match ip.iFtype with
  | .ifchr | .ifblk | .ififo =>
      (disk, { dp with diFtype := ip.iFtype, diSize := 0, diNumextents := 0 })
  | .none =>
      (disk, { dp with diFtype := ip.iFtype, diSize := ip.iSize, diExtents := padded [] })
  | _ =>
      let ne := ip.iiExtents.length
      if efsDirectextents < ne then
        (efsWriteindir ip disk,
          ⟨ip.iFtype, ip.iSize, ne, padded (setNumindirs ip.iiIndir.length ip.iiIndir)⟩)
      else
        (disk,
          ⟨ip.iFtype, ip.iSize, ne, padded (ip.iiExtents.modifyLast (trimmed (btobb ip.iSize)))⟩)

/-- The loop of `efs_readindir`: what was copied and the bytes left over, or
    nothing for an indirect extent of no length. -/
def readindirLoop (disk : Scatter.Store Extent) : (iex : List Extent) → (nb : Nat) →
    Option (List Extent × Nat)
  | [], nb => some ([], nb)
  | ie :: iex, nb =>
      if ie.exLength = 0 then none
      else
        let amount := min (bbtob ie.exLength) nb
        match readindirLoop disk iex (nb - amount) with
        | none => none
        | some (ex, rest) =>
            some (Scatter.get disk (ie.exBn * extsPerbb) (amount / sizeofExtent) ++ ex, rest)

/-- read indirect extents from the filesystem for the given inode -/
def efsReadindir (disk : Scatter.Store Extent) (numextents : Nat) (dap : List Extent) (ip : Inode) :
    Inode :=
  let ni := (dap.headD Extent.null).exOffset
  -- fix up old kernel mess
  let ni := if ni = 0 ∨ efsDirectextents < ni then 1 else ni
  match readindirLoop disk (dap.take ni) (numextents * sizeofExtent) with
  | none => { ip with iiIndir := [], iiIndirbytes := 0, iiExtents := [], iSize := 0 }
  | some (ex, nb) =>
      { ip with
        iiIndir := dap.take ni
        iiIndirbytes := bbtob (lengthOf (dap.take ni))
        iiExtents := ex
        iiTrunc := decide (nb ≠ 0) }

/-- Instantiate private inode state for ftype in ip. -/
def efsInode (disk : Scatter.Store Extent) (ftype : Ftype) (numextents : Nat) (dap : List Extent)
    (ip : Inode) : Except Errno Inode :=
  match ftype with
  | .ififo | .ifchr | .ifblk => .ok { ip with iSize := 0 }
  | _ =>
      if efsMaxextents < numextents then .error .eio
      else
        let ip := { ip with ciLastbn := 0, ciLastlen := 0, iiTrunc := false, iiIndirbytes := 0,
                            iiIndir := [] }
        if efsDirectextents < numextents then .ok (efsReadindir disk numextents dap ip)
        else .ok { ip with iiExtents := dap.take numextents }

/-- read in from the disk an efs inode -/
def efsIread (disk : Scatter.Store Extent) (dp : Dinode) (ip : Inode) : Except Errno Inode :=
  let ip := { ip with iFtype := dp.diFtype }
  if dp.diFtype = .none then .ok ip
  else
    match efsInode disk dp.diFtype dp.diNumextents dp.diExtents ip with
    | .error e => .error e
    | .ok ip => .ok { ip with iSize := dp.diSize }

/-! ## What is written and read back -/

/-- The cells of the indirect extents. -/
def chunksOf (iex : List Extent) : List (Nat × Nat) :=
  iex.map fun ie => (ie.exBn * extsPerbb, ie.exLength * extsPerbb)

theorem capacity_chunksOf (iex : List Extent) :
    Scatter.capacity (chunksOf iex) = lengthOf iex * extsPerbb := by
  induction iex with
  | nil => rfl
  | cons ie iex ih =>
      rw [chunksOf, List.map_cons, Scatter.capacity_cons, lengthOf_cons, Nat.add_mul, ← ih]
      rfl

theorem amount_eq (len n : Nat) :
    min (bbtob len) (n * sizeofExtent) / sizeofExtent = min (len * extsPerbb) n := by
  simp only [bbtob, sizeofExtent, extsPerbb]
  omega

theorem amount_rest (len n : Nat) :
    n * sizeofExtent - min (bbtob len) (n * sizeofExtent) = (n - len * extsPerbb) * sizeofExtent := by
  simp only [bbtob, sizeofExtent, extsPerbb]
  omega

/-- The cells of different indirect extents are different. -/
theorem chunksOf_apart {iex : List Extent} (apart : (blocksOf iex).Nodup) :
    ((chunksOf iex).flatMap Scatter.cells).Nodup := by
  induction iex with
  | nil => exact List.nodup_nil
  | cons ie iex ih =>
      rw [blocksOf_cons, List.nodup_append'] at apart
      obtain ⟨_, others, disjoint⟩ := apart
      rw [chunksOf, List.map_cons, List.flatMap_cons, List.nodup_append']
      refine ⟨List.nodup_range', ih others, ?_⟩
      intro cell here there
      obtain ⟨chunk, mem, inside⟩ := List.mem_flatMap.mp there
      obtain ⟨other, among, rfl⟩ := List.mem_map.mp mem
      simp only [Scatter.cells, List.mem_range'_1, extsPerbb] at here inside
      have left : cell / 64 ∈ ie.blocks := mem_blocks.mpr (by omega)
      have right : cell / 64 ∈ other.blocks := mem_blocks.mpr (by omega)
      exact disjoint left (List.mem_flatMap.mpr ⟨other, among, right⟩)

@[simp] theorem length_modifyLast (f : Extent → Extent) (exts : List Extent) :
    (exts.modifyLast f).length = exts.length := by
  rcases List.eq_nil_or_concat' exts with rfl | ⟨init, last, rfl⟩
  · rfl
  · rw [List.modifyLast_concat, List.length_append, List.length_append]
    rfl

/-- Changing the last of a list that goes on changes nothing before. -/
theorem modifyLast_split {f : Extent → Extent} {exts : List Extent} {n : Nat}
    (more : n < exts.length) :
    (exts.modifyLast f).take n = exts.take n ∧
      (exts.modifyLast f).drop n = (exts.drop n).modifyLast f := by
  have some : exts.drop n ≠ [] := by
    intro none
    have length := congrArg List.length none
    rw [List.length_drop] at length
    exact absurd length (by simp only [List.length_nil]; omega)
  have parts : exts.modifyLast f = exts.take n ++ (exts.drop n).modifyLast f := by
    rw [← List.modifyLast_append_of_right_ne_nil _ _ _ some, List.take_append_drop]
  have length : (exts.take n).length = n := List.length_take_of_le (Nat.le_of_lt more)
  rw [parts]
  exact ⟨List.take_left' length, List.drop_left' length⟩

/-- The writing loop scatters the extents, the last of them trimmed if the last
    indirect extent is not a spare one. -/
theorem writeindirLoop_eq {sizebb : Nat} {iex ex : List Extent} (disk : Scatter.Store Extent)
    (room : ex.length ≤ lengthOf iex * extsPerbb) :
    writeindirLoop sizebb iex ex disk = Scatter.scatter (chunksOf iex)
      (if lengthOf iex.dropLast * extsPerbb < ex.length then ex.modifyLast (trimmed sizebb) else ex)
      disk := by
  induction iex generalizing ex disk with
  | nil => rfl
  | cons ie iex ih =>
      rw [lengthOf_cons, Nat.add_mul] at room
      have taken : ex.take (min (ie.exLength * extsPerbb) ex.length) =
          ex.take (ie.exLength * extsPerbb) := by
        rw [← List.take_take, List.take_length]
      have dropped : ex.drop (min (ie.exLength * extsPerbb) ex.length) =
          ex.drop (ie.exLength * extsPerbb) := by
        rcases Nat.le_total (ie.exLength * extsPerbb) ex.length with less | more
        · rw [Nat.min_eq_left less]
        · rw [Nat.min_eq_right more, List.drop_length, List.drop_of_length_le more]
      unfold writeindirLoop
      dsimp only
      rw [amount_eq, taken, dropped]
      have chunks : chunksOf (ie :: iex) =
          (ie.exBn * extsPerbb, ie.exLength * extsPerbb) :: chunksOf iex := rfl
      cases iex with
      | nil =>
          rw [lengthOf_nil, Nat.zero_mul, Nat.add_zero] at room
          rw [if_pos rfl, chunks, List.take_of_length_le room]
          have trim : (if lengthOf [ie].dropLast * extsPerbb < ex.length then
              ex.modifyLast (trimmed sizebb) else ex) = ex.modifyLast (trimmed sizebb) := by
            cases ex with
            | nil => rfl
            | cons first ex => exact if_pos (by simp)
          have fits : (ex.modifyLast (trimmed sizebb)).length ≤ ie.exLength * extsPerbb := by
            rw [length_modifyLast]
            exact room
          rw [trim, Scatter.scatter, List.take_of_length_le fits]
          rfl
      | cons next iex =>
          rw [if_neg (List.cons_ne_nil next iex), chunks, Scatter.scatter,
            ih _ (by rw [List.length_drop]; omega), List.dropLast_cons_cons, lengthOf_cons,
            Nat.add_mul, List.length_drop]
          by_cases used : lengthOf (next :: iex).dropLast * extsPerbb <
              ex.length - ie.exLength * extsPerbb
          · have split : _ ∧ _ := modifyLast_split (f := trimmed sizebb)
              (show ie.exLength * extsPerbb < ex.length by omega)
            rw [if_pos used, if_pos (by omega), split.1, split.2]
          · rw [if_neg used, if_neg (by omega)]

/-- The reading loop gathers, if no indirect extent is empty. -/
theorem readindirLoop_eq {iex : List Extent} {n : Nat} (disk : Scatter.Store Extent)
    (solid : ∀ ie ∈ iex, 0 < ie.exLength) :
    readindirLoop disk iex (n * sizeofExtent) = some (Scatter.gather disk (chunksOf iex) n,
      (n - lengthOf iex * extsPerbb) * sizeofExtent) := by
  induction iex generalizing n with
  | nil =>
      rw [lengthOf_nil, Nat.zero_mul, Nat.sub_zero]
      rfl
  | cons ie iex ih =>
      have here := solid ie (List.mem_cons_self ..)
      unfold readindirLoop
      dsimp only
      rw [if_neg (Nat.ne_of_gt here), amount_rest,
        ih fun other mem => solid other (List.mem_cons_of_mem _ mem)]
      dsimp only
      rw [amount_eq, lengthOf_cons, Nat.add_mul, Nat.sub_add_eq]
      rfl

/-- The last extent passes the place where it is trimmed: it does unless it lies
    before a spare indirect extent. -/
def Inode.Passes (ip : Inode) : Prop :=
  ip.iiExtents.length ≤ efsDirectextents ∨
    lengthOf ip.iiIndir.dropLast * extsPerbb < ip.iiExtents.length

instance (ip : Inode) : Decidable ip.Passes := by
  unfold Inode.Passes
  infer_instance

/-- The extents as they are written. -/
def Inode.written (ip : Inode) : List Extent :=
  if ip.Passes then ip.iiExtents.modifyLast (trimmed (btobb ip.iSize)) else ip.iiExtents

theorem Inode.written_length (ip : Inode) : ip.written.length = ip.iiExtents.length := by
  unfold Inode.written
  split
  · exact length_modifyLast _ _
  · rfl

section Readback

variable {sure : Bool} {fs : Efs} {ip : Inode}

theorem take_padded {exts : List Extent} {n : Nat} (length : exts.length = n) :
    (padded exts).take n = exts := by
  unfold padded
  exact List.take_left' length

theorem setNumindirs_chunks (ne : Nat) (iex : List Extent) :
    chunksOf (setNumindirs ne iex) = chunksOf iex := by
  cases iex <;> rfl

theorem setNumindirs_lengthOf (ne : Nat) (iex : List Extent) :
    lengthOf (setNumindirs ne iex) = lengthOf iex := by
  cases iex <;> rfl

theorem setNumindirs_length (ne : Nat) (iex : List Extent) :
    (setNumindirs ne iex).length = iex.length := by
  cases iex <;> rfl

theorem setNumindirs_solid {ne : Nat} {iex : List Extent} (solid : ∀ ie ∈ iex, 0 < ie.exLength) :
    ∀ ie ∈ setNumindirs ne iex, 0 < ie.exLength := by
  cases iex with
  | nil => exact fun ie mem => by cases mem
  | cons first iex =>
      intro ie mem
      rcases List.mem_cons.mp mem with rfl | later
      · exact solid first (List.mem_cons_self ..)
      · exact solid ie (List.mem_cons_of_mem _ later)

theorem efsIupdat_mapped (mapped : ip.iFtype.mapped = true) (disk : Scatter.Store Extent)
    (dp : Dinode) : efsIupdat ip disk dp =
      if efsDirectextents < ip.iiExtents.length then
        (efsWriteindir ip disk, ⟨ip.iFtype, ip.iSize, ip.iiExtents.length,
          padded (setNumindirs ip.iiIndir.length ip.iiIndir)⟩)
      else (disk, ⟨ip.iFtype, ip.iSize, ip.iiExtents.length,
        padded (ip.iiExtents.modifyLast (trimmed (btobb ip.iSize)))⟩) := by
  unfold efsIupdat
  cases ftype : ip.iFtype with
  | ifreg => rfl
  | ifdir => rfl
  | iflnk => rfl
  | none | ififo | ifchr | ifblk =>
      rw [ftype] at mapped
      cases mapped

/-- The in-core inode a read starts from. -/
def Inode.blank (ip : Inode) (ftype : Ftype) : Inode :=
  { ip with iFtype := ftype, ciLastbn := 0, ciLastlen := 0, iiTrunc := false, iiIndirbytes := 0,
            iiIndir := [] }

theorem efsIread_mapped {dp : Dinode} (mapped : dp.diFtype.mapped = true)
    (few : dp.diNumextents ≤ efsMaxextents) (disk : Scatter.Store Extent) (old : Inode) :
    efsIread disk dp old = .ok { (if efsDirectextents < dp.diNumextents then
        efsReadindir disk dp.diNumextents dp.diExtents (old.blank dp.diFtype)
      else { old.blank dp.diFtype with iiExtents := dp.diExtents.take dp.diNumextents }) with
      iSize := dp.diSize } := by
  have typed : dp.diFtype ≠ .none := by
    intro none
    rw [none] at mapped
    cases mapped
  have default : efsInode disk dp.diFtype dp.diNumextents dp.diExtents
      { old with iFtype := dp.diFtype } = .ok (if efsDirectextents < dp.diNumextents then
        efsReadindir disk dp.diNumextents dp.diExtents (old.blank dp.diFtype)
      else { old.blank dp.diFtype with iiExtents := dp.diExtents.take dp.diNumextents }) := by
    unfold efsInode
    cases ftype : dp.diFtype with
    | ifreg | ifdir | iflnk =>
        dsimp only
        rw [if_neg (Nat.not_lt.mpr few)]
        split <;> rfl
    | none | ififo | ifchr | ifblk =>
        rw [ftype] at mapped
        cases mapped
  unfold efsIread
  dsimp only
  rw [if_neg typed, default]

theorem Inode.Indirect.cells {n : Nat} (area : ip.Indirect n) :
    n ≤ lengthOf ip.iiIndir * extsPerbb := by
  have enough := area.enough
  rw [area.counted] at enough
  simp only [bbtob, sizeofExtent, extsPerbb] at enough ⊢
  omega

/-- The indirect extents hold what was written into them. -/
theorem gather_written (ok : ip.Ok sure fs) (many : efsDirectextents < ip.iiExtents.length)
    (disk : Scatter.Store Extent) :
    Scatter.gather (efsWriteindir ip disk) (chunksOf ip.iiIndir) ip.iiExtents.length =
      ip.written := by
  have enough := (ok.shape.indirect many).cells
  have written : (if lengthOf ip.iiIndir.dropLast * extsPerbb < ip.iiExtents.length then
      ip.iiExtents.modifyLast (trimmed (btobb ip.iSize)) else ip.iiExtents) = ip.written := by
    have passes : ip.Passes ↔ lengthOf ip.iiIndir.dropLast * extsPerbb < ip.iiExtents.length :=
      or_iff_right (Nat.not_le.mpr many)
    unfold Inode.written
    simp only [passes]
  have apart : (blocksOf ip.iiIndir).Nodup := by
    have nodup := ok.holds.own.1
    rw [Inode.owned, blocksOf_append] at nodup
    exact List.Nodup.of_append_right nodup
  have room : ip.written.length ≤ Scatter.capacity (chunksOf ip.iiIndir) := by
    rw [ip.written_length, capacity_chunksOf]
    exact enough
  unfold efsWriteindir
  rw [writeindirLoop_eq disk enough, written, ← ip.written_length,
    Scatter.gather_scatter (chunksOf_apart apart) room]

theorem readindirLoop_written (ok : ip.Ok sure fs) (many : efsDirectextents < ip.iiExtents.length)
    (disk : Scatter.Store Extent) :
    readindirLoop (efsWriteindir ip disk) (setNumindirs ip.iiIndir.length ip.iiIndir)
      (ip.iiExtents.length * sizeofExtent) = some (ip.written, 0) := by
  have area := ok.shape.indirect many
  rw [readindirLoop_eq _ (setNumindirs_solid area.solid), setNumindirs_chunks,
    setNumindirs_lengthOf, Nat.sub_eq_zero_of_le area.cells, Nat.zero_mul, gather_written ok many]

/-- An inode is read back as it was written. -/
theorem efsIread_efsIupdat (ok : ip.Ok sure fs) (mapped : ip.iFtype.mapped = true)
    (disk : Scatter.Store Extent) (dp : Dinode) (old : Inode) :
    ∃ ip', efsIread (efsIupdat ip disk dp).1 (efsIupdat ip disk dp).2 old = .ok ip' ∧
      ip'.iiExtents = ip.written ∧ ip'.iSize = ip.iSize := by
  have shape := ok.shape
  rw [efsIupdat_mapped mapped]
  by_cases many : efsDirectextents < ip.iiExtents.length
  · rw [if_pos many, efsIread_mapped mapped shape.few]
    dsimp only
    rw [if_pos many]
    refine ⟨_, rfl, ?_, rfl⟩
    have some : ip.iiIndir ≠ [] := by
      intro none
      have area := shape.indirect many
      have enough := area.enough
      rw [area.counted, none, lengthOf_nil] at enough
      exact absurd enough (Nat.not_le_of_lt (Nat.mul_pos (Nat.zero_lt_of_lt many) (by decide)))
    have count : 0 < ip.iiIndir.length := List.length_pos_iff.mpr some
    have head : ((padded (setNumindirs ip.iiIndir.length ip.iiIndir)).headD Extent.null).exOffset =
        ip.iiIndir.length := by
      cases indir : ip.iiIndir with
      | nil => exact absurd indir some
      | cons first rest => rfl
    have vector := shape.vector
    have indirs : ¬(ip.iiIndir.length = 0 ∨ efsDirectextents < ip.iiIndir.length) := by
      rintro (none | beyond)
      · omega
      · exact absurd vector (Nat.not_le_of_lt beyond)
    unfold efsReadindir
    dsimp only
    rw [head, if_neg indirs, take_padded (setNumindirs_length _ _), readindirLoop_written ok many]
  · rw [if_neg many, efsIread_mapped mapped shape.few]
    dsimp only
    rw [if_neg many]
    refine ⟨_, rfl, ?_, rfl⟩
    dsimp only
    have passes : ip.Passes := Or.inl (Nat.le_of_not_lt many)
    rw [take_padded (length_modifyLast _ _), Inode.written, if_pos passes]

end Readback

/-! ## What a trim does to the map of the file -/

/-- The disk block of a block of the file. -/
def mapOf (exts : List Extent) (bb : Nat) : Option Nat :=
  (exts.find? fun ex => ex.covers bb).map fun ex => ex.exBn + (bb - ex.exOffset)

/-- What reading an inode back must keep: legal extents without gaps, and the
    place of every byte of the file. -/
structure ReadsBack (ip : Inode) (exts : List Extent) : Prop where
  legal : ∀ ex ∈ exts, 1 ≤ ex.exLength ∧ ex.exLength ≤ efsMaxextentlen
  contig : Contig 0 exts
  same : ∀ a < ip.iSize, mapOf exts (btobbt a) = mapOf ip.iiExtents (btobbt a)

/-- If the last extent is trimmed, what is left of it in its 8-bit field is a
    legal length. -/
def Inode.TrimFits (ip : Inode) : Prop :=
  ∀ ex, ip.iiExtents.getLast? = some ex → ip.Passes →
    btobb ip.iSize < ex.exOffset + ex.exLength →
    1 ≤ ((btobb ip.iSize : Int) - ex.exOffset) % 256 ∧
      ((btobb ip.iSize : Int) - ex.exOffset) % 256 ≤ efsMaxextentlen

theorem mapOf_concat (init : List Extent) (last : Extent) (bb : Nat) :
    mapOf (init ++ [last]) bb =
      (mapOf init bb).or (if last.covers bb then some (last.exBn + (bb - last.exOffset)) else none) := by
  unfold mapOf
  rw [List.find?_append]
  cases init.find? fun ex => ex.covers bb with
  | some ex => rfl
  | none =>
      rw [List.find?_singleton]
      cases last.covers bb <;> rfl

theorem ReadsBack.self {ip : Inode} (shape : ip.Shape) : ReadsBack ip ip.iiExtents :=
  ⟨fun ex mem => (shape.each ex mem).2, shape.contig, fun _ _ => rfl⟩

/-- The file keeps its map if its last extent is cut to at least its size. -/
theorem ReadsBack.cut {ip : Inode} {init : List Extent} {last : Extent} {len : Nat} (shape : ip.Shape)
    (concat : ip.iiExtents = init ++ [last]) (legal : 1 ≤ len ∧ len ≤ efsMaxextentlen)
    (enough : ∀ bb, last.exOffset ≤ bb → bb < btobb ip.iSize →
      (bb < last.exOffset + len ↔ bb < last.exOffset + last.exLength)) :
    ReadsBack ip (init ++ [{ last with exLength := len }]) := by
  have contig := shape.contig
  have each := shape.each
  rw [concat] at contig each
  refine ⟨fun ex mem => ?_, ?_, fun a inside => ?_⟩
  · rcases List.mem_append.mp mem with old | new
    · exact (each ex (List.mem_append_left _ old)).2
    · rw [List.mem_singleton.mp new]
      exact legal
  · have parts := contig_append.mp contig
    exact contig_append.mpr ⟨parts.1, parts.2.1, trivial⟩
  · have within : btobbt a < btobb ip.iSize :=
      btobbt_lt.mpr (Nat.lt_of_lt_of_le inside (le_bbtob_btobb ip.iSize))
    have covers : ({ last with exLength := len } : Extent).covers (btobbt a) =
        last.covers (btobbt a) := by
      rw [Bool.eq_iff_iff, covers_iff, covers_iff]
      exact and_congr_right fun low => enough (btobbt a) low within
    rw [concat, mapOf_concat, mapOf_concat, covers]

/-- Trimming the last extent of an inode is harmless exactly when it leaves a
    legal length. -/
theorem written_readsBack {ip : Inode} (shape : ip.Shape) :
    ReadsBack ip ip.written ↔ ip.TrimFits := by
  unfold Inode.written Inode.TrimFits
  by_cases passes : ip.Passes
  · rw [if_pos passes]
    rcases List.eq_nil_or_concat' ip.iiExtents with none | ⟨init, last, concat⟩
    · have self := ReadsBack.self shape
      rw [none] at self ⊢
      exact iff_of_true self (fun ex listed => by cases listed)
    · have each := shape.each last (by
        rw [concat]
        exact List.mem_append_right _ (List.mem_singleton_self last))
      by_cases cut : btobb ip.iSize < last.exOffset + last.exLength
      · have trim : trimmed (btobb ip.iSize) last = { last with exLength :=
            (((btobb ip.iSize : Int) - last.exOffset) % 256).toNat } := if_pos cut
        rw [concat, List.modifyLast_concat, trim]
        generalize hlen : ((btobb ip.iSize : Int) - last.exOffset) % 256 = len
        constructor
        · intro back ex listed _ _
          rw [List.getLast?_concat, Option.some.injEq] at listed
          have legal := back.legal _ (List.mem_append_right _ (List.mem_singleton_self _))
          dsimp only at legal
          rw [← listed, hlen]
          omega
        · intro fits
          have legal := fits last (by rw [List.getLast?_concat]) passes cut
          rw [hlen] at legal
          refine ReadsBack.cut shape concat (by omega) fun bb low within => ?_
          -- where the file reaches into the extent, the field holds the rest of it
          have short : efsMaxextentlen < 256 := by decide
          have exact_ : len = (btobb ip.iSize : Int) - last.exOffset := by
            rw [← hlen]
            exact Int.emod_eq_of_lt (by omega) (by omega)
          omega
      · have trim : trimmed (btobb ip.iSize) last = last := if_neg cut
        have self := ReadsBack.self shape
        rw [concat] at self ⊢
        rw [List.modifyLast_concat, trim]
        refine iff_of_true self fun ex listed _ beyond => ?_
        rw [List.getLast?_concat, Option.some.injEq] at listed
        rw [← listed] at beyond
        exact absurd beyond cut
  · rw [if_neg passes]
    exact iff_of_true (ReadsBack.self shape) fun ex _ through => absurd through passes

/-- After any run from a consistent start, an inode written out and read back
    has legal extents and its old map exactly when the trim of its last extent
    leaves a legal length, if there is one. -/
theorem readback_iff (t : Tune) (s : System) (ops : List FileOp) (start : s.Consistent) (i : Nat)
    (disk : Scatter.Store Extent) (dp : Dinode) (old : Inode)
    (mapped : ((Run.exec (System.step t) s ops).inodes i).iFtype.mapped = true) :
    let ip := (Run.exec (System.step t) s ops).inodes i
    (∃ ip', efsIread (efsIupdat ip disk dp).1 (efsIupdat ip disk dp).2 old = .ok ip' ∧
      ReadsBack ip ip'.iiExtents) ↔ ip.TrimFits := by
  intro ip
  have ok : ip.Ok false _ := (start.tidy.run t ops).ok i
  obtain ⟨ip', read, written, _⟩ := efsIread_efsIupdat ok mapped disk dp old
  rw [← written_readsBack ok.shape, ← written]
  constructor
  · rintro ⟨ip'', read', back⟩
    rw [read] at read'
    cases read'
    exact back
  · intro back
    exact ⟨ip', read, back⟩

theorem readback_iff_vacant :
    let ip := (Run.exec (System.step production) vacant [.write 2 0 512]).inodes 2
    (∃ ip', efsIread (efsIupdat ip (fun _ => Extent.null) ⟨.none, 0, 0, []⟩).1
        (efsIupdat ip (fun _ => Extent.null) ⟨.none, 0, 0, []⟩).2 noPiece = .ok ip' ∧
      ReadsBack ip ip'.iiExtents) ↔ ip.TrimFits :=
  readback_iff production vacant [.write 2 0 512] vacant_consistent 2 (fun _ => Extent.null)
    ⟨.none, 0, 0, []⟩ noPiece (by decide)

/-- A write far past the end of an empty file takes both blocks and fails; the
    extent it leaves is written out with length zero. -/
theorem empty_extent_written : vacant.Consistent ∧
    let ip := (Run.exec (System.step production) vacant [.write 2 5120 512]).inodes 2
    let out := efsIupdat ip (fun _ => Extent.null) ⟨.none, 0, 0, []⟩
    ip.iiExtents = [⟨0, 5, 2, 0⟩] ∧ ip.iSize = 0 ∧
      (efsIread out.1 out.2 noPiece).map Inode.iiExtents = .ok [⟨0, 5, 0, 0⟩] ∧
      ¬∃ ip', efsIread out.1 out.2 noPiece = .ok ip' ∧ ReadsBack ip ip'.iiExtents := by
  have read : (efsIread
      (efsIupdat ((Run.exec (System.step production) vacant [.write 2 5120 512]).inodes 2)
        (fun _ => Extent.null) ⟨.none, 0, 0, []⟩).1
      (efsIupdat ((Run.exec (System.step production) vacant [.write 2 5120 512]).inodes 2)
        (fun _ => Extent.null) ⟨.none, 0, 0, []⟩).2 noPiece).map Inode.iiExtents =
      .ok [⟨0, 5, 0, 0⟩] := by
    decide +kernel
  refine ⟨vacant_consistent, by decide +kernel, by decide +kernel, read, ?_⟩
  rintro ⟨ip', same, back⟩
  rw [same] at read
  injection read with exts
  have legal := back.legal ⟨0, 5, 0, 0⟩ (by rw [exts]; exact List.mem_singleton_self _)
  exact absurd legal.1 (by decide)

end Irix.ExtentFs
