import Irix.Fsck.Blocks
import Mathlib.Data.List.ModifyLast
import Mathlib.Tactic.Common

/-! # The kernel's inodes under the traversal of fsck

An inode the kernel wrote is traversed in Phase 1.  fsck sees the blocks the
kernel means if the inode has no indirect extents, or a single one: it looks at
no other indirect extent than the first.
-/

namespace Irix.Fsck

open Lib ExtentFs

/-- The blocks an inode references up to its size, and its indirect blocks. -/
def referenced (ip : Inode) : List Nat :=
  (blocksOf ip.iiExtents).take (btobb ip.iSize) ++ blocksOf ip.iiIndir

/-- A block function that also logs the blocks it is called with. -/
def logged {σ : Type} (func : BlockFn σ) : BlockFn (σ × List Nat) :=
  fun st blk => (((func st.1 blk).1, st.2 ++ [blk]), (func st.1 blk).2)

theorem feed_logged {σ : Type} (func : BlockFn σ) (blks : List Nat) (st : σ) (log : List Nat) :
    feed (logged func) blks (st, log) = (feed func blks st, log ++ blks) := by
  induction blks generalizing st log with
  | nil => rw [List.append_nil]; rfl
  | cons blk blks ih =>
      have rest := ih (func st blk).1 (log ++ [blk])
      rw [List.append_assoc] at rest
      exact rest

/-- Nobody has claimed the blocks, and they are all data blocks. -/
def Fresh (sb : Layout) (fk : Blocks) (blks : List Nat) : Prop :=
  ∀ b ∈ blks, keeps sb b = true ∧ fk.blkmap b = false

section Phase1

variable {sb : Layout} {fk : Blocks} {blks : List Nat}

/-- Fresh blocks are taken one by one without a word. -/
theorem feed_fresh (nodup : blks.Nodup) (fresh : Fresh sb fk blks) :
    (feed (pass1 sb) blks fk).blkerrs = fk.blkerrs ∧
      ∀ b ∉ blks, (feed (pass1 sb) blks fk).blkmap b = fk.blkmap b := by
  induction blks generalizing fk with
  | nil => exact ⟨rfl, fun _ _ => rfl⟩
  | cons b blks ih =>
      obtain ⟨data, clear⟩ := fresh b (List.mem_cons_self ..)
      obtain ⟨apart, others⟩ := List.nodup_cons.mp nodup
      rw [feed, List.foldl_cons, pass1_fresh data clear]
      have outside : ∀ a, a ≠ b → Bits.fill true fk.blkmap b 1 a = fk.blkmap a :=
        fun a other => Bits.fill_outside (by omega)
      have next : Fresh sb { fk with
          nBlks := fk.nBlks + 1
          blkmap := Bits.fill true fk.blkmap b 1
          filsize := fk.filsize + 1 } blks := by
        intro a mem
        have here := fresh a (List.mem_cons_of_mem _ mem)
        have other : a ≠ b := fun same => apart (same ▸ mem)
        exact ⟨here.1, (outside a other).trans here.2⟩
      have rest := ih others next
      rw [feed] at rest
      refine ⟨rest.1, fun a out => ?_⟩
      rw [List.mem_cons, not_or] at out
      exact (rest.2 a out.2).trans (outside a out.1)

/-- Phase 1 is fed with the claims of an inode; it does not stop on fresh ones,
    and it does not stop without a word on others. -/
theorem pass1_traversal (busy : Busy sb fk) (disk : Scatter.Store Extent) (dp : Dinode) :
    let out := ckinode (logged (pass1 sb)) (outrange sb) disk dp (fk, [])
    let blks := claims (keeps sb) (outrange sb) disk dp
    (blks.Nodup → Fresh sb fk blks →
      out.1.st = (feed (pass1 sb) blks fk, blks) ∧
        out.1.reports = (ckinode (probe (keeps sb)) (outrange sb) disk dp []).1.reports) ∧
    (out.1.st.1.blkerrs = fk.blkerrs → out.1.st.2 = blks ∧
      out.1.reports = (ckinode (probe (keeps sb)) (outrange sb) disk dp []).1.reports) := by
  intro out blks
  have decides : Decides (logged (pass1 sb)) (fun st => Busy sb st.1) (keeps sb) :=
    ⟨fun st busy b => (pass1_decides sb).kept st.1 busy b,
      fun st busy b => (pass1_decides sb).ret st.1 busy b⟩
  obtain ⟨fed, _, reports⟩ : Fed _ blks (fk, []) out.1.st (out.2 = .stop) ∧ _ ∧ _ :=
    ckinode_follows decides (outrange sb) disk dp busy
  constructor
  · intro nodup fresh
    have going : out.2 ≠ .stop := by
      intro stopped
      obtain ⟨pre, b, post, parts, stops, _⟩ := fed.cut stopped
      rw [parts] at nodup fresh
      rw [feed_logged] at stops
      have before := feed_fresh (List.Nodup.of_append_left nodup)
        (fun a mem => fresh a (List.mem_append_left _ mem))
      obtain ⟨data, clear⟩ := fresh b (List.mem_append_right _ (List.mem_cons_self ..))
      have apart : b ∉ pre := fun mem =>
        List.disjoint_of_nodup_append nodup mem (List.mem_cons_self ..)
      rw [← before.2 b apart] at clear
      rw [logged, pass1_fresh data clear] at stops
      cases stops
    refine ⟨?_, reports going⟩
    rw [fed.full going, feed_logged, List.nil_append]
  · intro quiet
    have longer : ∀ blks fk, Busy sb fk → Busy sb (feed (pass1 sb) blks fk) ∧
        fk.blkerrs.length ≤ (feed (pass1 sb) blks fk).blkerrs.length := by
      intro blks
      induction blks with
      | nil => exact fun fk busy => ⟨busy, Nat.le_refl _⟩
      | cons b blks ih =>
          intro fk busy
          have rest := ih (pass1 sb fk b).1 ((pass1_decides sb).kept fk busy b)
          exact ⟨rest.1, Nat.le_trans (pass1_reports busy b).2.1 rest.2⟩
    have going : out.2 ≠ .stop := by
      intro stopped
      obtain ⟨pre, b, post, _, stops, ends⟩ := fed.cut stopped
      rw [feed_logged] at stops ends
      have before := longer pre fk busy
      have last := (pass1_reports before.1 b).2.2 stops
      have same : (feed (pass1 sb) (pre ++ [b]) fk).blkerrs = fk.blkerrs := by
        rw [← quiet, ends]
      rw [feed_append] at same
      have longer : (pass1 sb (feed (pass1 sb) pre fk) b).1.blkerrs.length = fk.blkerrs.length :=
        congrArg List.length same
      omega
    refine ⟨?_, reports going⟩
    rw [fed.full going, feed_logged, List.nil_append]

end Phase1

/-! ## What the kernel wrote -/

/-- fsck sees what the kernel means: no extent lies past the size, and there is
    no indirect extent, or no other than the first. -/
structure Sees (ip : Inode) : Prop where
  within : ∀ ex, ip.iiExtents.getLast? = some ex → ex.exOffset < btobb ip.iSize
  direct : ip.iiExtents.length ≤ efsDirectextents → lengthOf ip.iiIndir = 0
  single : efsDirectextents < ip.iiExtents.length → ip.iiIndir.length = 1

section Written

variable {sure : Bool} {fs : Efs} {ip : Inode}

theorem keeps_of_inData {sb : Geometry} {ex : Extent} (data : InData sb ex) {b : Nat}
    (mem : b ∈ ex.blocks) : keeps sb.toLayout b = true ∧ outrange sb.toLayout b = false := by
  have range := mem_blocks.mp mem
  have area : sb.InArea (sb.bbtocg ex.exBn) b :=
    ⟨data.inside, Nat.le_trans data.low range.1, Nat.lt_of_lt_of_le range.2 data.high⟩
  have kept : keeps sb.toLayout b = true := keeps_iff.mpr ⟨_, area⟩
  refine ⟨kept, ?_⟩
  simp only [keeps, Bool.and_eq_true, Bool.not_eq_true'] at kept
  exact kept.1

/-- The extents as written, where the size lies in the last one: legal, and
    exactly the blocks up to the size. -/
theorem written_blocks (shape : ip.Shape)
    (within : ∀ ex, ip.iiExtents.getLast? = some ex → ex.exOffset < btobb ip.iSize) :
    let exts := ip.iiExtents.modifyLast (trimmed (btobb ip.iSize))
    Contig 0 exts ∧ (∀ ex ∈ exts, ex.exMagic = 0 ∧ 0 < ex.exLength) ∧
      blocksOf exts = (blocksOf ip.iiExtents).take (btobb ip.iSize) := by
  intro exts
  rcases List.eq_nil_or_concat' ip.iiExtents with none | ⟨init, last, concat⟩
  · have empty : exts = [] := by
      show ip.iiExtents.modifyLast _ = []
      rw [none]
      rfl
    rw [empty, none]
    exact ⟨trivial, fun ex mem => (by cases mem), List.take_nil.symm⟩
  · have trim : exts = init ++ [trimmed (btobb ip.iSize) last] := by
      show ip.iiExtents.modifyLast _ = _
      rw [concat, List.modifyLast_concat]
    have contig := shape.contig
    have each := shape.each
    rw [concat] at contig each
    have parts := contig_append.mp contig
    have start : last.exOffset = lengthOf init := by
      have := parts.2.1
      omega
    have legal := each last (List.mem_append_right _ (List.mem_singleton_self last))
    have reach := within last (by rw [concat, List.getLast?_concat])
    have count : (blocksOf init).length = last.exOffset := by rw [blocksOf_length, start]
    have cut : trimmed (btobb ip.iSize) last =
        { last with exLength := min last.exLength (btobb ip.iSize - last.exOffset) } := by
      unfold trimmed
      split
      next less =>
        have short : efsMaxextentlen < 256 := by decide
        have exact_ : (((btobb ip.iSize : Int) - last.exOffset) % 256).toNat =
            btobb ip.iSize - last.exOffset := by
          rw [Int.emod_eq_of_lt (by omega) (by omega)]
          omega
        rw [exact_, Nat.min_eq_right (by omega)]
      next all => rw [Nat.min_eq_left (by omega)]
    rw [trim, cut]
    refine ⟨contig_append.mpr ⟨parts.1, parts.2.1, trivial⟩, fun ex mem => ?_, ?_⟩
    · rcases List.mem_append.mp mem with old | new
      · have here := each ex (List.mem_append_left _ old)
        exact ⟨here.1, here.2.1⟩
      · rw [List.mem_singleton.mp new]
        refine ⟨legal.1, ?_⟩
        dsimp only
        omega
    · rw [concat, blocksOf_append, blocksOf_append, List.take_append, count,
        List.take_of_length_le (by omega)]
      congr 1
      simp only [blocksOf_cons, blocksOf_nil, List.append_nil, Extent.blocks]
      rcases Nat.le_total last.exLength (btobb ip.iSize - last.exOffset) with all | less
      · rw [Nat.min_eq_left all, List.take_range'_of_length_le all]
      · rw [Nat.min_eq_right less, List.take_range'_of_length_ge less]

theorem special_written (mapped : ip.iFtype.mapped = true) {dp : Dinode}
    (ftype : dp.diFtype = ip.iFtype) : ¬special dp = true := by
  unfold special
  rw [ftype]
  cases named : ip.iFtype with
  | none | ififo | ifchr | ifblk =>
      rw [named] at mapped
      cases mapped
  | ifreg | ifdir | iflnk => decide

/-- What fsck sees of an inode whose extents fit in it. -/
theorem probe_direct {k o : Nat → Bool} (mapped : ip.iFtype.mapped = true)
    (few : ¬efsDirectextents < ip.iiExtents.length) (disk : Scatter.Store Extent) (dp : Dinode) :
    claims k o (efsIupdat ip disk dp).1 (efsIupdat ip disk dp).2 = (flat 0 ip.written).st ∧
      (ckinode (probe k) o (efsIupdat ip disk dp).1 (efsIupdat ip disk dp).2 []).1.reports =
        (flat 0 ip.written).reports := by
  have passes : ip.Passes := Or.inl (Nat.le_of_not_lt few)
  have written : ip.written = ip.iiExtents.modifyLast (trimmed (btobb ip.iSize)) := if_pos passes
  rw [efsIupdat_mapped mapped, if_neg few]
  unfold claims ckinode
  rw [if_neg (special_written mapped rfl)]
  dsimp only
  rw [if_pos (Nat.le_of_not_lt few), take_padded (length_modifyLast _ _), chkExtlist_probe, written]
  exact ⟨rfl, rfl⟩

/-- What fsck sees of an inode with indirect extents: the first of them. -/
theorem probe_indirect {k o : Nat → Bool} {ie : Extent} {rest : List Extent}
    (ok : ip.Ok sure fs) (mapped : ip.iFtype.mapped = true)
    (many : efsDirectextents < ip.iiExtents.length) (indir : ip.iiIndir = ie :: rest)
    (magic : ie.exMagic = 0) (kept : ∀ b ∈ ie.blocks, k b = true ∧ o b = false)
    (disk : Scatter.Store Extent) (dp : Dinode) :
    (claims k o (efsIupdat ip disk dp).1 (efsIupdat ip disk dp).2).Perm
        (ie.blocks ++ (flat 0 (ip.written.take (ie.exLength * extsPerbb))).st) ∧
      (ckinode (probe k) o (efsIupdat ip disk dp).1 (efsIupdat ip disk dp).2 []).1.reports =
        (flat 0 (ip.written.take (ie.exLength * extsPerbb))).reports ++
          (if ip.iiExtents.length ≤ ie.exLength * extsPerbb then [] else
            if (ie.exLength : Int) <
                ((ip.iiExtents.length - ie.exLength * extsPerbb : Int) * sizeofExtent + 511) / 512 then
              [.exterr "INDIRECT EXTENT SIZE ERROR" { ie with exOffset := ip.iiIndir.length }]
            else []) := by
  have gathered := gather_written ok many disk
  have first : Scatter.get (efsWriteindir ip disk) (ie.exBn * extsPerbb)
      (min (ip.iiExtents.length : Int) ((ie.exLength : Int) * extsPerbb)).toNat =
      ip.written.take (ie.exLength * extsPerbb) := by
    have count : (min (ip.iiExtents.length : Int) ((ie.exLength : Int) * extsPerbb)).toNat =
        min (ie.exLength * extsPerbb) ip.iiExtents.length := by
      simp only [extsPerbb]
      omega
    have chunks : chunksOf ip.iiIndir =
        (ie.exBn * extsPerbb, ie.exLength * extsPerbb) :: chunksOf rest := by
      rw [indir]
      rfl
    rw [chunks, Scatter.gather] at gathered
    have taken := congrArg (List.take (min (ie.exLength * extsPerbb) ip.iiExtents.length)) gathered
    rw [List.take_left' (Scatter.length_get _ _ _)] at taken
    rw [count, taken]
    rcases Nat.le_total (ie.exLength * extsPerbb) ip.iiExtents.length with less | more
    · rw [Nat.min_eq_left less]
    · rw [Nat.min_eq_right more, List.take_of_length_le (Nat.le_of_eq ip.written_length),
        List.take_of_length_le (by rw [ip.written_length]; exact more)]
  have few : ¬4096 ≤ ip.iiExtents.length := by
    have limit := ok.shape.few
    have : efsMaxextents < 4096 := by decide
    omega
  have head : (padded (setNumindirs ip.iiIndir.length ip.iiIndir)).headD Extent.null =
      { ie with exOffset := ip.iiIndir.length } := by
    rw [indir]
    rfl
  obtain ⟨log, loop, perm⟩ := chkIextLoop_probe (efsWriteindir ip disk) ie.exLength ie.exBn
    ip.iiExtents.length ⟨[], 0, []⟩ (fun b low high => (kept b (mem_blocks.mpr ⟨low, high⟩)).1)
    (fun b low high => (kept b (mem_blocks.mpr ⟨low, high⟩)).2)
  rw [first] at loop perm
  rw [efsIupdat_mapped mapped, if_pos many]
  unfold claims ckinode chkIext
  rw [if_neg (special_written mapped rfl)]
  dsimp only
  rw [if_neg (Nat.not_le_of_lt many), head, if_neg few, if_neg (not_not.mpr magic)]
  dsimp only
  rw [loop]
  dsimp only [List.nil_append]
  by_cases enough : ip.iiExtents.length ≤ ie.exLength * extsPerbb
  · have fits : ¬(ie.exLength : Int) <
        ((ip.iiExtents.length - ie.exLength * extsPerbb : Int) * sizeofExtent + 511) / 512 := by
      simp only [extsPerbb, sizeofExtent] at enough ⊢
      push_cast
      omega
    rw [if_neg fits, if_pos enough, List.append_nil]
    exact ⟨perm, rfl⟩
  · rw [if_neg enough]
    by_cases short : (ie.exLength : Int) <
        ((ip.iiExtents.length - ie.exLength * extsPerbb : Int) * sizeofExtent + 511) / 512
    · rw [if_pos short, if_pos short]
      exact ⟨perm, rfl⟩
    · rw [if_neg short, if_neg short, List.append_nil]
      exact ⟨perm, rfl⟩

theorem owned_keeps (ok : ip.Ok sure fs) {b : Nat} (mem : b ∈ blocksOf ip.owned) :
    keeps fs.toLayout b = true ∧ outrange fs.toLayout b = false := by
  obtain ⟨ex, among, inside⟩ := List.mem_flatMap.mp mem
  rcases ok.holds.data ex among with data | null
  · exact keeps_of_inData data inside
  · have range := mem_blocks.mp inside
    omega

/-- Where an extent lies past the size, its first block is none the kernel
    references. -/
theorem past_unreferenced (ok : ip.Ok sure fs) {init : List Extent} {last : Extent}
    (concat : ip.iiExtents = init ++ [last]) (past : btobb ip.iSize ≤ last.exOffset) :
    last.exBn ∉ referenced ip := by
  have shape := ok.shape
  have contig := shape.contig
  have nodup := ok.holds.own.1
  have legal := shape.some last (by
    rw [concat]
    exact List.mem_append_right _ (List.mem_singleton_self last))
  rw [concat] at contig
  have start : last.exOffset = 0 + lengthOf init := (contig_append.mp contig).2.1
  have here : last.exBn ∈ last.blocks := mem_blocks.mpr ⟨Nat.le_refl _, Nat.lt_add_of_pos_right legal⟩
  rw [Inode.owned, concat, blocksOf_append, blocksOf_append, blocksOf_cons, blocksOf_nil,
    List.append_nil] at nodup
  intro mem
  unfold referenced at mem
  rw [concat, blocksOf_append, blocksOf_cons, blocksOf_nil, List.append_nil] at mem
  rcases List.mem_append.mp mem with data | indirect
  · rw [List.take_append_of_le_length (by rw [blocksOf_length]; omega)] at data
    exact List.disjoint_of_nodup_append (List.Nodup.of_append_left nodup)
      (List.mem_of_mem_take data) here
  · exact List.disjoint_of_nodup_append nodup (List.mem_append_right _ here) indirect

/-- A traversal of the extents as written that prints nothing comes to the last
    of them. -/
theorem flat_reaches (shape : ip.Shape) {init : List Extent} {last : Extent}
    (concat : ip.iiExtents = init ++ [last])
    (quiet : (flat 0 (ip.iiExtents.modifyLast (trimmed (btobb ip.iSize)))).reports = []) :
    last.exBn ∈ (flat 0 (ip.iiExtents.modifyLast (trimmed (btobb ip.iSize)))).st := by
  have contig := shape.contig
  have each := shape.each
  rw [concat] at contig each
  have parts := contig_append.mp contig
  have start : last.exOffset = 0 + lengthOf init := parts.2.1
  have before := flat_contig parts.1 (Nat.le_refl 0) fun ex mem =>
    ⟨(each ex (List.mem_append_left _ mem)).1, (each ex (List.mem_append_left _ mem)).2.1⟩
  have magic : last.exMagic = 0 := (each last (List.mem_append_right _ (List.mem_singleton_self last))).1
  obtain ⟨len, cut⟩ : ∃ len, trimmed (btobb ip.iSize) last = { last with exLength := len } := by
    unfold trimmed
    split
    · exact ⟨_, rfl⟩
    · exact ⟨last.exLength, rfl⟩
  rw [concat, List.modifyLast_concat, cut, flat_append] at quiet ⊢
  have order : ¬last.exOffset < (flat 0 init).firstoff := by
    have := before.2.2
    omega
  simp only [Walk.andThen, flat, flatExt, if_neg order, magic, ne_eq, not_true, if_false] at quiet ⊢
  by_cases zero : len = 0
  · rw [if_pos zero] at quiet
    simp only [List.append_nil, List.append_eq_nil_iff] at quiet
    cases quiet.2
  · rw [if_neg zero]
    refine List.mem_append_right _ (List.mem_append_left _ ?_)
    exact mem_blocks.mpr ⟨Nat.le_refl _, Nat.lt_add_of_pos_right (Nat.pos_of_ne_zero zero)⟩

/-- Where the extents are written with the last one trimmed, and fsck sees all
    of them and its indirect blocks `seen`, it sees what is meant if and only if
    no extent lies past the size and there are no other indirect blocks. -/
theorem seen_iff (ok : ip.Ok sure fs) {blks seen : List Nat} {reports : List Report}
    (perm : blks.Perm (seen ++ (flat 0 (ip.iiExtents.modifyLast (trimmed (btobb ip.iSize)))).st))
    (same : reports = (flat 0 (ip.iiExtents.modifyLast (trimmed (btobb ip.iSize)))).reports)
    (part : seen.Perm (blocksOf ip.iiIndir) ∨ seen = []) :
    (blks.Perm (referenced ip) ∧ reports = []) ↔
      (∀ ex, ip.iiExtents.getLast? = some ex → ex.exOffset < btobb ip.iSize) ∧
        seen.length = lengthOf ip.iiIndir := by
  constructor
  · rintro ⟨agrees, quiet⟩
    rw [same] at quiet
    have within : ∀ ex, ip.iiExtents.getLast? = some ex → ex.exOffset < btobb ip.iSize := by
      intro ex listed
      by_contra past
      obtain ⟨init, concat⟩ := List.getLast?_eq_some_iff.mp listed
      have reached := flat_reaches ok.shape concat quiet
      refine past_unreferenced ok concat (Nat.le_of_not_lt past) (agrees.subset ?_)
      exact perm.symm.subset (List.mem_append_right _ reached)
    refine ⟨within, ?_⟩
    obtain ⟨contig, legal, blocks⟩ := written_blocks ok.shape within
    have walked := flat_contig contig (Nat.le_refl 0) legal
    have counted := (perm.symm.trans agrees).length_eq
    rw [walked.1, blocks, referenced, List.length_append, List.length_append, blocksOf_length] at counted
    omega
  · rintro ⟨within, counted⟩
    obtain ⟨contig, legal, blocks⟩ := written_blocks ok.shape within
    have walked := flat_contig contig (Nat.le_refl 0) legal
    refine ⟨?_, same.trans walked.2.1⟩
    rw [walked.1, blocks] at perm
    have all : seen.Perm (blocksOf ip.iiIndir) := by
      rcases part with all | none
      · exact all
      · rw [none, List.length_nil, ← blocksOf_length] at counted
        rw [none, List.eq_nil_of_length_eq_zero counted.symm]
    exact perm.trans (List.perm_append_comm.trans (List.Perm.append_left _ all))

/-- The second indirect extent is one that fsck does not come to. -/
theorem other_unseen (ok : ip.Ok sure fs) (many : efsDirectextents < ip.iiExtents.length)
    {ie other : Extent} {rest : List Extent} (indir : ip.iiIndir = ie :: other :: rest) {blks : List Nat}
    (perm : blks.Perm (ie.blocks ++ (flat 0 (ip.written.take (ie.exLength * extsPerbb))).st)) :
    ¬blks.Perm (referenced ip) := by
  have shape := ok.shape
  -- what fsck walks is not the trimmed part
  have walked : ip.written.take (ie.exLength * extsPerbb) =
      ip.iiExtents.take (ie.exLength * extsPerbb) := by
    unfold Inode.written
    split
    next passes =>
      refine (modifyLast_split ?_).1
      have less := passes.resolve_left (Nat.not_le_of_lt many)
      rw [indir, List.dropLast_cons_cons, lengthOf_cons, Nat.add_mul] at less
      omega
    next => rfl
  have prefix_ : Contig 0 (ip.iiExtents.take (ie.exLength * extsPerbb)) := by
    have contig := shape.contig
    rw [← List.take_append_drop (ie.exLength * extsPerbb) ip.iiExtents] at contig
    exact (contig_append.mp contig).1
  have seen := flat_contig prefix_ (Nat.le_refl 0) fun ex mem =>
    have here := shape.each ex (List.mem_of_mem_take mem)
    ⟨here.1, here.2.1⟩
  rw [walked, seen.1] at perm
  have nodup := ok.holds.own.1
  have solid := (shape.indirect many).solid other (by rw [indir]; simp)
  have here : other.exBn ∈ other.blocks := mem_blocks.mpr ⟨Nat.le_refl _, Nat.lt_add_of_pos_right solid⟩
  rw [Inode.owned, indir, blocksOf_append, blocksOf_cons, blocksOf_cons] at nodup
  intro agrees
  have mem : other.exBn ∈ referenced ip := by
    unfold referenced
    rw [indir, blocksOf_cons, blocksOf_cons]
    exact List.mem_append_right _ (List.mem_append_right _ (List.mem_append_left _ here))
  rcases List.mem_append.mp (perm.subset (agrees.symm.subset mem)) with first | data
  · exact List.disjoint_of_nodup_append (List.Nodup.of_append_right nodup) first
      (List.mem_append_left _ here)
  · have among : other.exBn ∈ blocksOf ip.iiExtents := by
      obtain ⟨ex, taken, inside⟩ := List.mem_flatMap.mp data
      exact List.mem_flatMap.mpr ⟨ex, List.mem_of_mem_take taken, inside⟩
    exact List.disjoint_of_nodup_append nodup among
      (List.mem_append_right _ (List.mem_append_left _ here))

/-- What the probe sees of an inode is what the kernel means. -/
theorem probe_agrees_iff (ok : ip.Ok sure fs) (mapped : ip.iFtype.mapped = true)
    (first : ∀ ie, ip.iiIndir.head? = some ie → ie.exMagic = 0) (disk : Scatter.Store Extent)
    (dp : Dinode) :
    ((claims (keeps fs.toLayout) (outrange fs.toLayout) (efsIupdat ip disk dp).1
        (efsIupdat ip disk dp).2).Perm (referenced ip) ∧
      (ckinode (probe (keeps fs.toLayout)) (outrange fs.toLayout) (efsIupdat ip disk dp).1
        (efsIupdat ip disk dp).2 []).1.reports = []) ↔ Sees ip := by
  by_cases many : efsDirectextents < ip.iiExtents.length
  · obtain ⟨ie, rest, indir⟩ : ∃ ie rest, ip.iiIndir = ie :: rest := by
      cases indir : ip.iiIndir with
      | nil =>
          have cells := (ok.shape.indirect many).cells
          rw [indir, lengthOf_nil, Nat.zero_mul] at cells
          exact absurd many (by omega)
      | cons ie rest => exact ⟨ie, rest, rfl⟩
    have kept : ∀ b ∈ ie.blocks, keeps fs.toLayout b = true ∧ outrange fs.toLayout b = false := by
      intro b mem
      refine owned_keeps ok ?_
      rw [Inode.owned, indir, blocksOf_append, blocksOf_cons]
      exact List.mem_append_right _ (List.mem_append_left _ mem)
    obtain ⟨perm, reports⟩ := probe_indirect ok mapped many indir
      (first ie (by rw [indir]; rfl)) kept disk dp
    cases rest with
    | nil =>
        have cells := (ok.shape.indirect many).cells
        rw [indir, lengthOf_cons, lengthOf_nil, Nat.add_zero] at cells
        have passes : ip.Passes := Or.inr (by
          rw [indir]
          exact Nat.lt_of_le_of_lt (Nat.le_of_eq (Nat.zero_mul _)) (Nat.zero_lt_of_lt many))
        have written : ip.written = ip.iiExtents.modifyLast (trimmed (btobb ip.iSize)) := if_pos passes
        rw [List.take_of_length_le (by rw [ip.written_length]; exact cells), written] at perm reports
        rw [if_pos cells, List.append_nil] at reports
        have own : ie.blocks.Perm (blocksOf ip.iiIndir) := by
          rw [indir, blocksOf_cons, blocksOf_nil, List.append_nil]
        rw [seen_iff ok perm reports (Or.inl own)]
        constructor
        · rintro ⟨within, _⟩
          exact ⟨within, fun few => absurd many (Nat.not_lt_of_le few), fun _ => by rw [indir]; rfl⟩
        · intro sees
          refine ⟨sees.within, ?_⟩
          rw [indir, lengthOf_cons, lengthOf_nil, Extent.blocks, List.length_range', Nat.add_zero]
    | cons other rest =>
        refine iff_of_false (fun both => other_unseen ok many indir perm both.1) fun sees => ?_
        have single := sees.single many
        rw [indir] at single
        simp at single
  · obtain ⟨blks, reports⟩ := probe_direct mapped many disk dp
      (k := keeps fs.toLayout) (o := outrange fs.toLayout)
    have passes : ip.Passes := Or.inl (Nat.le_of_not_lt many)
    have written : ip.written = ip.iiExtents.modifyLast (trimmed (btobb ip.iSize)) := if_pos passes
    rw [written] at blks reports
    have none_seen : (claims (keeps fs.toLayout) (outrange fs.toLayout) (efsIupdat ip disk dp).1
        (efsIupdat ip disk dp).2).Perm
        ([] ++ (flat 0 (ip.iiExtents.modifyLast (trimmed (btobb ip.iSize)))).st) :=
      List.Perm.of_eq blks
    rw [seen_iff ok none_seen reports (Or.inr rfl), List.length_nil]
    constructor
    · rintro ⟨within, none⟩
      exact ⟨within, fun _ => none.symm, fun beyond => absurd beyond many⟩
    · intro sees
      exact ⟨sees.within, (sees.direct (Nat.le_of_not_lt many)).symm⟩

/-- On blocks nobody has claimed, the traversal of Phase 1 calls the block
    function with the blocks the kernel references, each once, and prints
    nothing, exactly when the inode has no other than one indirect extent and
    no extent past its size. -/
theorem traversal_agrees_iff (ok : ip.Ok sure fs) (mapped : ip.iFtype.mapped = true)
    (first : ∀ ie, ip.iiIndir.head? = some ie → ie.exMagic = 0) {fk : Blocks}
    (busy : Busy fs.toLayout fk) (unclaimed : ∀ b ∈ blocksOf ip.owned, fk.blkmap b = false)
    (disk : Scatter.Store Extent) (dp : Dinode) :
    let out := ckinode (logged (pass1 fs.toLayout)) (outrange fs.toLayout)
      (efsIupdat ip disk dp).1 (efsIupdat ip disk dp).2 (fk, [])
    (out.1.st.2.Perm (referenced ip) ∧ out.1.reports = [] ∧ out.1.st.1.blkerrs = fk.blkerrs) ↔
      Sees ip := by
  intro out
  obtain ⟨silent, quiet⟩ := pass1_traversal busy (efsIupdat ip disk dp).1 (efsIupdat ip disk dp).2
  rw [← probe_agrees_iff ok mapped first disk dp]
  constructor
  · rintro ⟨perm, reports, errs⟩
    obtain ⟨log, same⟩ := quiet errs
    exact ⟨log ▸ perm, same ▸ reports⟩
  · rintro ⟨perm, reports⟩
    have within : referenced ip ⊆ blocksOf ip.owned := by
      intro b mem
      rw [Inode.owned, blocksOf_append]
      rcases List.mem_append.mp mem with data | indirect
      · exact List.mem_append_left _ (List.mem_of_mem_take data)
      · exact List.mem_append_right _ indirect
    have nodup : (referenced ip).Nodup := by
      have all := ok.holds.own.1
      rw [Inode.owned, blocksOf_append] at all
      exact all.sublist ((List.take_sublist _ _).append (List.Sublist.refl _))
    have fresh : Fresh fs.toLayout fk (claims _ _ (efsIupdat ip disk dp).1 (efsIupdat ip disk dp).2) :=
      fun b mem =>
        have owned := within (perm.subset mem)
        ⟨(owned_keeps ok owned).1, unclaimed b owned⟩
    obtain ⟨st, same⟩ := silent (perm.nodup_iff.mpr nodup) fresh
    refine ⟨?_, same.trans reports, ?_⟩
    · rw [show out.1.st = _ from st]
      exact perm
    · rw [show out.1.st = _ from st]
      exact (feed_fresh (perm.nodup_iff.mpr nodup) fresh).1

end Written

/-- One group of 67 data blocks, all of them used. -/
def wide : Superblock where
  fsSize := 72
  fsFirstcg := 4
  fsCgfsize := 68
  fsCgisize := 1
  fsNcg := 1
  fsBmsize := 9
  size_eq := rfl
  bitmap_covers := by decide
  bitmap_limit := by decide
  bitmap_before := by decide
  inodes_some := Nat.zero_lt_one
  inodes_fit := by decide
  fsTfree := 0
  fsTinode := 0
  dmap := fun _ => false

theorem wide_inData {ex : Extent} (some : 0 < ex.exLength) (fits : ex.exLength ≤ efsMaxextentlen)
    (low : 5 ≤ ex.exBn) (high : ex.exBn + ex.exLength ≤ 72) :
    InData (efsMountany production wide).toGeometry ex := by
  have group : wide.bbtocg ex.exBn = 0 := Nat.div_eq_of_lt (show ex.exBn - 4 < 68 by omega)
  refine ⟨?_, ?_, ?_, some, fits⟩
  · show wide.bbtocg ex.exBn < 1
    rw [group]
    exact Nat.one_pos
  · show wide.dataStart (wide.bbtocg ex.exBn) ≤ ex.exBn
    rw [group]
    exact low
  · show ex.exBn + ex.exLength ≤ wide.dataStart (wide.bbtocg ex.exBn) + wide.dataLen
    rw [group]
    exact high

theorem wide_ok {ip : Inode} (shape : ip.Shape) (nodup : (blocksOf ip.owned).Nodup)
    (data : ∀ ex ∈ ip.owned, (0 < ex.exLength ∧ ex.exLength ≤ efsMaxextentlen) ∧
      5 ≤ ex.exBn ∧ ex.exBn + ex.exLength ≤ 72) : ip.Ok true (efsMountany production wide) := by
  refine ⟨⟨(efsMountany_ok production wide).sound, ⟨nodup, fun _ _ => rfl⟩, fun ex mem => ?_,
    fun _ => rfl⟩, shape⟩
  obtain ⟨⟨some, fits⟩, low, high⟩ := data ex mem
  exact Or.inl (wide_inData some fits low high)

/-- A file of one extent more than fit in one indirect block. -/
def scattered : Inode where
  iNumber := 2
  iFtype := .ifreg
  iSize := 33280
  ciLastbn := 0
  ciLastlen := 0
  iiTrunc := false
  iiIndirbytes := 1024
  iiIndir := [⟨0, 5, 1, 0⟩, ⟨0, 6, 1, 0⟩]
  iiExtents := (List.range 65).map fun i => ⟨0, 7 + i, 1, i⟩

theorem scattered_ok : scattered.Ok true (efsMountany production wide) := by
  refine wide_ok ⟨by decide, by decide, by decide, by decide, fun _ => by decide, fun _ => ?_⟩
    (by decide) (by decide)
  exact ⟨by decide, by decide, by decide⟩

/-- The same file with both indirect blocks in one extent. -/
def gathered : Inode := { scattered with iiIndir := [⟨0, 5, 2, 0⟩] }

theorem gathered_ok : gathered.Ok true (efsMountany production wide) := by
  refine wide_ok ⟨by decide, by decide, by decide, by decide, fun _ => by decide, fun _ => ?_⟩
    (by decide) (by decide)
  exact ⟨by decide, by decide, by decide⟩

theorem gathered_sees : Sees gathered :=
  ⟨by decide, by decide, by decide⟩

/-- The blocks of a file whose indirect extent has two blocks are all visited. -/
theorem traversal_agrees_iff_gathered :
    let sb := (efsMountany production wide).toLayout
    let ino := efsIupdat gathered (fun _ => Extent.null) ⟨.none, 0, 0, []⟩
    let out := ckinode (logged (pass1 sb)) (outrange sb) ino.1 ino.2 (initBmap sb blank, [])
    out.1.st.2.Perm (referenced gathered) ∧ out.1.reports = [] ∧
      out.1.st.1.blkerrs = (initBmap sb blank).blkerrs :=
  (traversal_agrees_iff gathered_ok rfl (fun _ first => by cases first; rfl)
    (initBmap_busy _ blank) (by decide) _ _).mpr gathered_sees

/-- fsck does not come to the second indirect block nor to the last extent, and
    finds nothing wrong. -/
theorem second_indirect_unseen :
    scattered.Ok true (efsMountany production wide) ∧
    let sb := wide.toLayout
    let ino := efsIupdat scattered (fun _ => Extent.null) ⟨.none, 0, 0, []⟩
    let out := ckinode (logged (pass1 sb)) (outrange sb) ino.1 ino.2 (initBmap sb blank, [])
    ¬out.1.st.2.Perm (referenced scattered) ∧ out.1.reports = [] ∧
      6 ∈ referenced scattered ∧ 71 ∈ referenced scattered ∧
      out.1.st.1.blkmap 6 = false ∧ out.1.st.1.blkmap 71 = false := by
  refine ⟨scattered_ok, ?_⟩
  decide

end Irix.Fsck
