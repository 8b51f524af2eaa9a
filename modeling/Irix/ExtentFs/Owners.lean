import Irix.ExtentFs.DiskFull
import Irix.ExtentFs.Ownership
import Irix.Lib.Run
import Mathlib.Data.List.Nodup
import Mathlib.Tactic.Common

/-! # One owner for every block

Any number of inodes are written, cut and removed on one volume.  The clear bits
of the data areas are the blocks that lie in one extent of one inode, on every
run that does not expand an inode in the state in which `efs_expand` forgets an
indirect extent.
-/

namespace Irix.ExtentFs

open Lib

/-! ## Growing in place -/

theorem rem_pos (t : Tune) (newposbb : Nat) : 0 < t.efsBbsperlb - newposbb % t.efsBbsperlb :=
  Nat.sub_pos_of_lt (Nat.mod_lt newposbb t.efsBbsperlb_pos)

theorem rem_short (t : Tune) (newposbb : Nat) :
    t.efsBbsperlb - newposbb % t.efsBbsperlb ≤ efsMaxextentlen :=
  Nat.le_trans (Nat.le_trans (Nat.sub_le _ _) t.efsBbsperlb_le) (by decide)

/-- The file can be grown up to a block without another extent. -/
def Inode.GrowsInPlace (fs : Efs) (ip : Inode) (bb : Nat) : Prop :=
  match ip.iiExtents.getLast? with
  | none => False
  | some ex => CanGrow fs ex (bb + 1 - (ex.exOffset + ex.exLength))

instance (fs : Efs) (ip : Inode) (bb : Nat) : Decidable (ip.GrowsInPlace fs bb) := by
  unfold Inode.GrowsInPlace
  cases ip.iiExtents.getLast? with
  | none => exact isFalse id
  | some ex => exact inferInstanceAs (Decidable (CanGrow _ _ _))

theorem CanGrow.fewer {fs : Efs} {ex : Extent} {m n : Nat} (can : CanGrow fs ex n) (le : m ≤ n) :
    CanGrow fs ex m :=
  ⟨Nat.le_trans (Nat.add_le_add_left le _) can.1, fun k less => can.2 k (Nat.lt_of_lt_of_le less le)⟩

/-- After some of the blocks behind an extent were added, the others are still
    there. -/
theorem CanGrow.rest {fs fs' : Efs} {ex : Extent} {m n : Nat} (can : CanGrow fs ex (m + n))
    (changed : Changed false fs fs' (fs.bbtocg ex.exBn) (ex.exBn + ex.exLength) m) :
    CanGrow fs' { ex with exLength := ex.exLength + m } n := by
  have geometry := changed.geometry
  constructor
  · have fits := can.1
    dsimp only
    rwa [Nat.add_assoc]
  · intro k less
    have next := can.2 (m + k) (Nat.add_lt_add_left less m)
    have place : ex.exBn + ex.exLength + (m + k) = ex.exBn + (ex.exLength + m) + k := by omega
    rw [place] at next
    dsimp only
    rw [geometry, changed.dmap, Bits.fill_outside (by omega)]
    exact next

section InPlace

variable {t : Tune} {vol : Volume} {ip : Inode} {newposbb fuel : Nat}

/-- A block the file has is not grown for. -/
theorem bmapLeaks_inside (shape : ip.Shape) (inside : newposbb < lengthOf ip.iiExtents) :
    bmapLeaks t newposbb fuel vol ip = false := by
  cases fuel with
  | zero => rfl
  | succ fuel =>
      obtain ⟨i, here, found, covers⟩ := bmapSearch_inside shape.contig shape.some inside
      unfold bmapLeaks
      rw [found]

theorem efsExpand_early (early : ip.iiExtents.length < efsDirectextents) :
    efsExpand t vol ip = (vol, ip, .ok ()) := by
  have few : ¬efsMaxextents ≤ ip.iiExtents.length := fun many =>
    absurd (Nat.lt_of_le_of_lt many early) (by decide)
  unfold efsExpand
  dsimp only
  rw [if_neg few, if_neg (Nat.ne_of_lt early), if_neg (fun both => Nat.lt_asymm both.1 early)]

/-- Growing does not bring an inode into the state in which it leaks. -/
theorem bmapGrow_leaks {vol' : Volume} {ip' : Inode} {wex : Bmapval} {pos len rem : Nat}
    (ok : ip.Ok true vol.efs) (fine : ¬ip.Leaks)
    (grown : bmapGrow t vol ip pos len rem = (vol', ip', .ok wex)) : ¬ip'.Leaks := by
  have append : ∀ vol, ip.Ok true vol.efs → bmapAppend t vol ip pos len rem = (vol', ip', .ok wex) →
      ¬ip'.Leaks := by
    intro vol ok done
    have expanded := efsExpand_ok (t := t) ok (fun _ => fine)
    have early : ip.iiExtents.length < efsDirectextents → efsExpand t vol ip = (vol, ip, .ok ()) :=
      efsExpand_early
    unfold bmapAppend at done
    generalize efsExpand t vol ip = out at expanded early done
    obtain ⟨vol₁, ip₁, r⟩ := out
    obtain ⟨indir, bytes, only⟩ := expanded.only
    dsimp only at only
    cases r with
    | error e => cases done
    | ok =>
        dsimp only at done
        generalize vol₁.alloc t ip₁.iNumber rem false = granted at done
        obtain ⟨vol₂, _ | wex₂⟩ := granted
        · cases done
        · cases done
          rintro ⟨direct, some⟩
          rw [only] at direct some
          simp only [List.length_append, List.length_singleton] at direct
          have before : ip.iiExtents.length < efsDirectextents := by omega
          have same := early before
          injection same with _ rest
          injection rest with same _
          rw [only] at same
          have needed := ok.shape.needed (by rw [← same]; exact some)
          omega
  unfold bmapGrow at grown
  cases listed : ip.iiExtents.getLast? with
  | none =>
      rw [listed] at grown
      exact append vol ok grown
  | some ex =>
      obtain ⟨init, concat⟩ := List.getLast?_eq_some_iff.mp listed
      have front : (ex :: (init ++ ip.iiIndir)).Perm ip.owned := by
        rw [Inode.owned, concat]
        exact (List.perm_append_singleton ex init).symm.append_right _
      have holds := ok.holds.perm front.symm
      rw [listed] at grown
      dsimp only at grown
      rcases vol.grow_cases holds (List.nil_subset _) rem with ⟨vol₁, out, goes⟩ | ⟨vol₁, wex₁, out, longer⟩
      · rw [out] at grown
        exact append vol₁ ⟨goes.goes.holds.perm front, ok.shape⟩ grown
      · rw [out] at grown
        cases grown
        rintro ⟨direct, some⟩
        refine fine ⟨?_, some⟩
        rw [concat] at direct ⊢
        simpa using direct

/-- An inode that does not leak at first does not leak on its way. -/
theorem bmapLeaks_never (ok : ip.Ok true vol.efs) (fine : ¬ip.Leaks) :
    bmapLeaks t newposbb fuel vol ip = false := by
  induction fuel generalizing vol ip with
  | zero => rfl
  | succ fuel ih =>
      have shape := ok.shape
      rcases Nat.lt_or_ge newposbb (lengthOf ip.iiExtents) with inside | past
      · exact bmapLeaks_inside shape inside
      obtain ⟨pos, len, found, total⟩ := bmapSearch_past shape.contig past
      unfold bmapLeaks
      rw [found]
      dsimp only
      have wanted := rem_pos t newposbb
      have short := rem_short t newposbb
      generalize t.efsBbsperlb - newposbb % t.efsBbsperlb = rem at wanted short ⊢
      have grown : Grown true vol ip (bmapGrow t vol ip pos len rem) :=
        bmapGrow_ok ok (fun _ _ => fine) total wanted short
      have still : ∀ vol' ip' wex, bmapGrow t vol ip pos len rem = (vol', ip', .ok wex) →
          ¬ip'.Leaks := fun _ _ _ => bmapGrow_leaks ok fine
      rw [decide_eq_false fine, Bool.and_false, Bool.false_or]
      generalize bmapGrow t vol ip pos len rem = out at grown still
      obtain ⟨vol', ip', r⟩ := out
      cases r with
      | error e => rfl
      | ok wex =>
          have ok' : ip'.Ok true (vol'.clear wex.bn wex.length).efs := ⟨grown.goes.goes.holds, grown.shape⟩
          dsimp only
          rw [ih ok' (still vol' ip' wex rfl), Bool.and_false]

/-- A file that can be grown in place is not expanded. -/
theorem bmapLeaks_inPlace (ok : ip.Ok true vol.efs) (can : ip.GrowsInPlace vol.efs newposbb) :
    bmapLeaks t newposbb fuel vol ip = false := by
  induction fuel generalizing vol ip with
  | zero => rfl
  | succ fuel ih =>
      have shape := ok.shape
      rcases Nat.lt_or_ge newposbb (lengthOf ip.iiExtents) with inside | past
      · exact bmapLeaks_inside shape inside
      obtain ⟨pos, len, found, total⟩ := bmapSearch_past shape.contig past
      unfold bmapLeaks
      rw [found]
      dsimp only
      have wanted := rem_pos t newposbb
      have short := rem_short t newposbb
      generalize t.efsBbsperlb - newposbb % t.efsBbsperlb = rem at wanted short ⊢
      unfold Inode.GrowsInPlace at can
      cases listed : ip.iiExtents.getLast? with
      | none =>
          rw [listed] at can
          exact can.elim
      | some ex =>
          obtain ⟨init, concat⟩ := List.getLast?_eq_some_iff.mp listed
          have ends : ex.exOffset + ex.exLength = lengthOf ip.iiExtents := by
            have contig := shape.contig
            rw [concat] at contig ⊢
            have start : ex.exOffset = 0 + lengthOf init := (contig_append.mp contig).2.1
            rw [lengthOf_append, lengthOf_cons, lengthOf_nil]
            omega
          have front : (ex :: (init ++ ip.iiIndir)).Perm ip.owned := by
            rw [Inode.owned, concat]
            exact (List.perm_append_singleton ex init).symm.append_right _
          have last : ex ∈ ip.iiExtents := List.mem_of_getLast? listed
          have valid : ValidExtent vol.efs ex := (ok.holds.perm front.symm).valid (shape.some ex last)
          have grow : GrowOk vol.efs ex rem (efsGrow vol.efs ex rem) :=
            efsGrow_ok ex rem ok.holds.sound
          rw [listed] at can
          dsimp only at can
          rw [ends] at can
          have never : extendFails vol ip rem = false := by
            unfold extendFails Volume.grow
            rw [listed]
            dsimp only
            generalize efsGrow vol.efs ex rem = out at grow
            cases grow with
            | bad invalid => exact absurd valid invalid
            | none _ stuck => exact absurd (can.fewer (by omega)) (stuck wanted)
            | grown _ _ positive _ _ =>
                rw [if_neg (Nat.ne_of_gt positive)]
                rfl
          have grown : Grown true vol ip (bmapGrow t vol ip pos len rem) :=
            bmapGrow_ok ok (fun _ fails => by rw [never] at fails; cases fails) total wanted short
          rw [never, Bool.false_and, Bool.false_or]
          unfold bmapGrow Volume.grow at grown ⊢
          rw [listed] at grown ⊢
          dsimp only at grown ⊢
          generalize efsGrow vol.efs ex rem = out at grow grown ⊢
          cases grow with
          | bad invalid => exact absurd valid invalid
          | none _ stuck => exact absurd (can.fewer (by omega)) (stuck wanted)
          | @grown fs' n _ changed positive le fits =>
              dsimp only at grown ⊢
              rw [if_neg (Nat.ne_of_gt positive)] at grown ⊢
              dsimp only at grown ⊢
              have ok' := grown.goes.goes.holds
              have shape' := grown.shape
              dsimp only at ok' shape'
              rcases Nat.lt_or_ge newposbb (lengthOf ip.iiExtents + n) with covers | beyond
              · have hit : ({ ex with exLength := ex.exLength + n } : Extent).covers newposbb = true :=
                  covers_iff.mpr ⟨by dsimp only; omega, by dsimp only; omega⟩
                rw [List.getLastD_concat, hit]
                rfl
              · rw [Bool.and_eq_false_iff]
                refine Or.inr (ih ⟨ok', shape'⟩ ?_)
                unfold Inode.GrowsInPlace
                dsimp only
                rw [List.getLast?_concat]
                have more : newposbb + 1 - lengthOf ip.iiExtents =
                    n + (newposbb + 1 - (ex.exOffset + (ex.exLength + n))) := by omega
                rw [more] at can
                exact can.rest changed

end InPlace

/-! ## Runs -/

/-- The inodes in core on one volume. -/
structure System where
  vol : Volume
  inodes : Nat → Inode

inductive FileOp where
  /-- `efs_bmap` for writing -/
  | write (i uOffset uCount : Nat)
  /-- the caller of `efs_bmap` moves the end of the file -/
  | sized (i iSize : Nat)
  | setsize (i newsize : Nat)
  | itrunc (i : Nat)
  /-- the last reference to an unlinked inode goes away -/
  | remove (i : Nat)
  deriving Repr, DecidableEq

namespace System

def put (s : System) (i : Nat) (out : Volume × Inode) : System :=
  ⟨out.1, Function.update s.inodes i out.2⟩

def step (t : Tune) (s : System) : FileOp → System
  | .write i uOffset uCount =>
      let out := efsBmapWrite t s.vol (s.inodes i) uOffset uCount
      s.put i (out.1, out.2.1)
  | .sized i iSize => s.put i (s.vol, { s.inodes i with iSize })
  | .setsize i newsize => s.put i (efsSetsize s.vol (s.inodes i) newsize)
  | .itrunc i => s.put i (efsItrunc s.vol (s.inodes i))
  | .remove i => s.put i (iputUnlinked s.vol (s.inodes i))

/-- The step needs another extent in an inode that has exactly as many as fit
    in it, and has indirect extents left from an earlier attempt to grow. -/
def Forgets (s : System) : FileOp → Prop
  | .write i uOffset _ =>
      (s.inodes i).Leaks ∧ lengthOf (s.inodes i).iiExtents ≤ btobbt uOffset ∧
        ¬(s.inodes i).GrowsInPlace s.vol.efs (btobbt uOffset)
  | _ => False

instance (s : System) (op : FileOp) : Decidable (s.Forgets op) := by
  cases op <;> unfold Forgets <;> infer_instance

/-- The `k`-th extent of inode `i` contains block `b`. -/
def Owns (s : System) (i k b : Nat) : Prop :=
  ∃ ex, (s.inodes i).owned[k]? = some ex ∧ ex.exBn ≤ b ∧ b < ex.exBn + ex.exLength

/-- Books, inodes and bit map of the volume agree. -/
structure Consistent (s : System) : Prop where
  sound : s.vol.efs.Sound
  sane : s.vol.efs.fsCorrupted = false
  shape : ∀ i, (s.inodes i).Shape
  data : ∀ i, ∀ ex ∈ (s.inodes i).owned, InData s.vol.efs.toGeometry ex
  ledger : Ledger.Exact (fun b => ∃ g, s.vol.efs.InArea g b) s.vol.efs.fsDmap
    (fun i => blocksOf (s.inodes i).owned)

/-- What every step keeps: no block is owned twice, and owned blocks are clear. -/
structure Tidy (s : System) : Prop where
  sound : s.vol.efs.Sound
  shape : ∀ i, (s.inodes i).Shape
  data : ∀ i, ∀ ex ∈ (s.inodes i).owned, InData s.vol.efs.toGeometry ex ∨ ex.exLength = 0
  held : Ledger.Held s.vol.efs.fsDmap (fun i => blocksOf (s.inodes i).owned)

section

variable {s : System} {i : Nat}

theorem Consistent.tidy (start : s.Consistent) : s.Tidy :=
  ⟨start.sound, start.shape, fun i ex mem => Or.inl (start.data i ex mem), start.ledger.held⟩

theorem Tidy.ok (tidy : s.Tidy) (i : Nat) : (s.inodes i).Ok false s.vol.efs :=
  ⟨⟨tidy.sound, tidy.held.alone i, fun ex mem => (tidy.data i ex mem).imp_right fun none => ⟨rfl, none⟩,
    fun sure_ => by cases sure_⟩, tidy.shape i⟩

theorem Consistent.ok (start : s.Consistent) (i : Nat) : (s.inodes i).Ok true s.vol.efs :=
  ⟨⟨start.sound, start.ledger.held.alone i, fun ex mem => Or.inl (start.data i ex mem),
    fun _ => start.sane⟩, start.shape i⟩

theorem put_owned (s : System) (i : Nat) (out : Volume × Inode) :
    (fun j => blocksOf ((s.put i out).inodes j).owned) =
      Function.update (fun j => blocksOf (s.inodes j).owned) i (blocksOf out.2.owned) := by
  funext j
  rcases eq_or_ne j i with rfl | other
  · simp only [System.put, Function.update_self]
  · simp only [System.put, Function.update_of_ne other]

/-- A move of one inode keeps the system tidy. -/
theorem Tidy.put {sure : Bool} {kept : List Nat} {out : Volume × Inode} (tidy : s.Tidy)
    (goes : VGoes sure kept s.vol (s.inodes i).owned out.1 out.2.owned) (shape : out.2.Shape) :
    (s.put i out).Tidy := by
  obtain ⟨geometry, moves, holds⟩ := goes.goes
  refine ⟨holds.sound, fun j => ?_, fun j ex mem => ?_, ?_⟩
  · rcases eq_or_ne j i with rfl | other
    · simpa only [System.put, Function.update_self] using shape
    · simpa only [System.put, Function.update_of_ne other] using tidy.shape j
  · rcases eq_or_ne j i with rfl | other
    · simp only [System.put, Function.update_self] at mem ⊢
      exact (holds.data ex mem).imp_right And.right
    · simp only [System.put, Function.update_of_ne other] at mem ⊢
      rw [geometry]
      exact tidy.data j ex mem
  · rw [put_owned]
    apply moves.held
    rw [Function.update_eq_self]
    exact tidy.held

/-- A step of one inode that is a sure move keeps all of them consistent. -/
theorem Consistent.put {kept : List Nat} {out : Volume × Inode} (start : s.Consistent)
    (goes : VGoes true kept s.vol (s.inodes i).owned out.1 out.2.owned) (shape : out.2.Shape) :
    (s.put i out).Consistent := by
  have tidy := start.tidy.put goes shape
  obtain ⟨geometry, moves, holds⟩ := goes.goes
  refine ⟨tidy.sound, holds.sane rfl, tidy.shape, fun j ex mem => ?_, tidy.held, ?_⟩
  · rcases eq_or_ne j i with rfl | other
    · simp only [System.put, Function.update_self] at mem ⊢
      exact (holds.data ex mem).resolve_right (fun null => by cases null.1)
    · simp only [System.put, Function.update_of_ne other] at mem ⊢
      rw [geometry]
      exact start.data j ex mem
  · have same : (s.put i out).vol.efs.toGeometry = s.vol.efs.toGeometry := geometry
    rw [put_owned, same]
    apply moves.complete
    rw [Function.update_eq_self]
    exact start.ledger.complete

/-- A consistent system: each clear bit of a data area is one owner's block. -/
theorem Consistent.unique (consistent : s.Consistent) {i j k l b : Nat} (left : s.Owns i k b)
    (right : s.Owns j l b) : i = j ∧ k = l := by
  obtain ⟨ex, here, inside⟩ := left
  obtain ⟨ex', here', inside'⟩ := right
  have held := consistent.ledger.held
  have mem : ∀ {j l : Nat} {ex : Extent}, (s.inodes j).owned[l]? = some ex →
      ex.exBn ≤ b ∧ b < ex.exBn + ex.exLength → b ∈ blocksOf (s.inodes j).owned :=
    fun at_ within => List.mem_flatMap.mpr ⟨_, List.mem_of_getElem? at_, mem_blocks.mpr within⟩
  have same : i = j := by
    by_contra different
    exact held.disjoint i j different (mem here inside) (mem here' inside')
  subst same
  refine ⟨rfl, ?_⟩
  have nodup := held.nodup i
  dsimp only [blocksOf] at nodup
  rw [List.nodup_flatMap] at nodup
  have apart := List.pairwise_iff_getElem.mp nodup.2
  obtain ⟨kin, kis⟩ := List.getElem?_eq_some_iff.mp here
  obtain ⟨lin, lis⟩ := List.getElem?_eq_some_iff.mp here'
  rcases Nat.lt_trichotomy k l with before | equal | after
  · have disjoint := apart k l kin lin before
    rw [kis, lis] at disjoint
    exact (disjoint (mem_blocks.mpr inside) (mem_blocks.mpr inside')).elim
  · exact equal
  · have disjoint := apart l k lin kin after
    rw [kis, lis] at disjoint
    exact (disjoint (mem_blocks.mpr inside') (mem_blocks.mpr inside)).elim

theorem Consistent.clear_iff (consistent : s.Consistent) {g b : Nat} (area : s.vol.efs.InArea g b) :
    s.vol.efs.fsDmap b = false ↔ ∃ i k, s.Owns i k b := by
  constructor
  · intro clear
    obtain ⟨i, mem⟩ := consistent.ledger.complete b ⟨g, area⟩ clear
    obtain ⟨ex, among, inside⟩ := List.mem_flatMap.mp mem
    obtain ⟨k, here⟩ := List.getElem?_of_mem among
    exact ⟨i, k, ex, here, mem_blocks.mp inside⟩
  · rintro ⟨i, k, ex, here, inside⟩
    refine consistent.ledger.held.clear i b ?_
    exact List.mem_flatMap.mpr ⟨ex, List.mem_of_getElem? here, mem_blocks.mpr inside⟩

end

end System

section Write

variable {sure : Bool} {t : Tune} {vol : Volume} {ip : Inode} {uOffset uCount : Nat}

/-- A write that does not forget an indirect extent on its way is a sure move. -/
theorem efsBmapWrite_goes (ok : ip.Ok sure vol.efs)
    (fine : sure = true → bmapLeaks t (btobbt uOffset) (btobbt uOffset + 2) vol ip = false) :
    VGoes sure [] vol ip.owned (efsBmapWrite t vol ip uOffset uCount).1
        (efsBmapWrite t vol ip uOffset uCount).2.1.owned ∧
      (efsBmapWrite t vol ip uOffset uCount).2.1.Shape := by
  have located : Located sure (btobbt uOffset) vol ip
      (bmapLocate t (btobbt uOffset) (btobbt uOffset + 2) vol ip) :=
    bmapLocate_ok ok fine (Nat.succ_pos _) (by omega)
  unfold efsBmapWrite
  dsimp only
  generalize bmapLocate t (btobbt uOffset) (btobbt uOffset + 2) vol ip = out at located ⊢
  obtain ⟨vol', ip', r⟩ := out
  have goes := located.goes.fewer (List.nil_subset _)
  cases r with
  | error e => exact ⟨goes, located.shape⟩
  | ok found =>
      obtain ⟨i, wex⟩ := found
      refine ⟨goes.trans ?_, located.shape⟩
      have still : VGoes sure [] vol' ip'.owned vol' ip'.owned :=
        VGoes.perm goes.goes.holds (List.Perm.refl _)
      cases wex with
      | none => exact still
      | some wex =>
          dsimp only
          split
          · exact VGoes.clear goes.goes.holds (fun b none => by cases none)
          · exact still

end Write

namespace System

/-- A step is a move of one inode, a sure one unless it may forget an extent. -/
theorem step_put {sure : Bool} (t : Tune) (s : System) (op : FileOp)
    (ok : ∀ i, (s.inodes i).Ok sure s.vol.efs)
    (safe : sure = true → ∀ i uOffset uCount, op = .write i uOffset uCount →
      bmapLeaks t (btobbt uOffset) (btobbt uOffset + 2) s.vol (s.inodes i) = false) :
    ∃ i out, s.step t op = s.put i out ∧
      VGoes sure [] s.vol (s.inodes i).owned out.1 out.2.owned ∧ out.2.Shape := by
  cases op with
  | write i uOffset uCount =>
      exact ⟨i, _, rfl, efsBmapWrite_goes (ok i) fun sure_ => safe sure_ i uOffset uCount rfl⟩
  | sized i iSize =>
      have shape := (ok i).shape
      exact ⟨i, _, rfl, VGoes.perm (ok i).holds (List.Perm.refl _), shape.contig, shape.each,
        shape.few, shape.vector, shape.needed, fun many =>
          have area := shape.indirect many
          ⟨area.counted, area.enough, area.solid⟩⟩
  | setsize i newsize => exact ⟨i, _, rfl, efsSetsize_goes (ok i)⟩
  | itrunc i => exact ⟨i, _, rfl, efsItrunc_goes (ok i)⟩
  | remove i => exact ⟨i, _, rfl, iputUnlinked_goes (ok i)⟩

theorem Tidy.step {t : Tune} {s : System} (op : FileOp) (tidy : s.Tidy) : (s.step t op).Tidy := by
  obtain ⟨i, out, same, goes, shape⟩ := step_put t s op tidy.ok (fun sure_ => by cases sure_)
  rw [same]
  exact tidy.put goes shape

/-- Every run keeps the system tidy. -/
theorem Tidy.run {s : System} (t : Tune) (ops : List FileOp) (tidy : s.Tidy) :
    (Run.exec (System.step t) s ops).Tidy :=
  Run.invariant_always (fun _ op tidy => Tidy.step op tidy) tidy ops

theorem Consistent.step {t : Tune} {s : System} {op : FileOp} (start : s.Consistent)
    (fine : ¬s.Forgets op) : (s.step t op).Consistent := by
  have safe : ∀ i uOffset uCount, op = .write i uOffset uCount →
      bmapLeaks t (btobbt uOffset) (btobbt uOffset + 2) s.vol (s.inodes i) = false := by
    rintro i uOffset uCount rfl
    by_cases leaks : (s.inodes i).Leaks
    · rcases Nat.lt_or_ge (btobbt uOffset) (lengthOf (s.inodes i).iiExtents) with inside | past
      · exact bmapLeaks_inside (start.shape i) inside
      · exact bmapLeaks_inPlace (start.ok i) (by_contra fun stuck => fine ⟨leaks, past, stuck⟩)
    · exact bmapLeaks_never (start.ok i) leaks
  obtain ⟨i, out, same, goes, shape⟩ := step_put t s op start.ok (fun _ => safe)
  rw [same]
  exact start.put goes shape

/-- A run that forgets no indirect extent keeps the system consistent. -/
theorem Consistent.run {t : Tune} {s : System} {ops : List FileOp} (start : s.Consistent)
    (along : Run.Along (System.step t) (fun s op => ¬s.Forgets op) s ops) :
    (Run.exec (System.step t) s ops).Consistent :=
  have keep : ∀ (s : System) op, s.Consistent → ¬s.Forgets op → (s.step t op).Consistent :=
    fun _ _ consistent fine => consistent.step fine
  Run.invariant keep start along

end System

/-- After any run that forgets no indirect extent, no block is owned twice, and
    the clear bits of the data areas are the owned blocks. -/
theorem owned_exactly_once (t : Tune) (s : System) (ops : List FileOp) (start : s.Consistent)
    (along : Run.Along (System.step t) (fun s op => ¬s.Forgets op) s ops) :
    let s' := Run.exec (System.step t) s ops
    (∀ i k j l b, s'.Owns i k b → s'.Owns j l b → i = j ∧ k = l) ∧
      ∀ g b, s'.vol.efs.InArea g b →
        (s'.vol.efs.fsDmap b = false ↔ ∃ i k, s'.Owns i k b ∧
          ∀ j l, s'.Owns j l b → i = j ∧ k = l) := by
  intro s'
  have consistent : s'.Consistent := start.run along
  refine ⟨fun i k j l b left right => consistent.unique left right, fun g b area => ?_⟩
  rw [consistent.clear_iff area]
  constructor
  · rintro ⟨i, k, owns⟩
    exact ⟨i, k, owns, fun j l other => consistent.unique owns other⟩
  · rintro ⟨i, k, owns, _⟩
    exact ⟨i, k, owns⟩

theorem three_limit : 3 ≤ 262144 := by decide

theorem three_before : 2 + btobb 3 ≤ 4 := by decide

/-- One group with a single free block, 5. -/
def oneFree : Superblock where
  fsSize := 20
  fsFirstcg := 4
  fsCgfsize := 16
  fsCgisize := 1
  fsNcg := 1
  fsBmsize := 3
  size_eq := rfl
  bitmap_covers := by decide
  bitmap_limit := three_limit
  bitmap_before := three_before
  inodes_some := Nat.zero_lt_one
  inodes_fit := by decide
  fsTfree := 1
  fsTinode := 1
  dmap := fun b => b = 5

/-- A file of as many extents as fit in the inode, block 6 the last of them. -/
def twelvePieces : Inode where
  iNumber := 2
  iFtype := .ifreg
  iSize := 6144
  ciLastbn := 0
  ciLastlen := 0
  iiTrunc := false
  iiIndirbytes := 0
  iiIndir := []
  iiExtents := [⟨0, 7, 1, 0⟩, ⟨0, 8, 1, 1⟩, ⟨0, 9, 1, 2⟩, ⟨0, 10, 1, 3⟩, ⟨0, 11, 1, 4⟩, ⟨0, 12, 1, 5⟩,
    ⟨0, 13, 1, 6⟩, ⟨0, 14, 1, 7⟩, ⟨0, 15, 1, 8⟩, ⟨0, 16, 1, 9⟩, ⟨0, 17, 1, 10⟩, ⟨0, 6, 1, 11⟩]

/-- A file of the two blocks that are left. -/
def onePiece : Inode :=
  { twelvePieces with iNumber := 3, iSize := 1024, iiExtents := [⟨0, 18, 2, 0⟩] }

def noPiece : Inode := { twelvePieces with iFtype := .none, iSize := 0, iiExtents := [] }

def crowded : System where
  vol := ⟨efsMountany production oneFree, fun _ => 0, fun _ _ => 1, 0, Extent.null⟩
  inodes := fun i => if i = 2 then twelvePieces else if i = 3 then onePiece else noPiece

theorem crowded_cases (i : Nat) : crowded.inodes i = twelvePieces ∨
    crowded.inodes i = onePiece ∨ crowded.inodes i = noPiece := by
  unfold crowded
  dsimp only
  split
  · exact Or.inl rfl
  · split
    · exact Or.inr (Or.inl rfl)
    · exact Or.inr (Or.inr rfl)

theorem crowded_consistent : crowded.Consistent where
  sound := (efsMountany_ok production oneFree).sound
  sane := rfl
  shape := by
    have none : noPiece.Shape := ⟨trivial, by decide, by decide, by decide, by decide,
        fun many => absurd many (by decide)⟩
    have one : onePiece.Shape := ⟨⟨rfl, trivial⟩, by decide, by decide, by decide, by decide,
        fun many => absurd many (by decide)⟩
    have twelve : twelvePieces.Shape :=
      ⟨by unfold twelvePieces; simp [Contig], by decide, by decide, by decide, by decide,
        fun many => absurd many (by decide)⟩
    intro i
    rcases crowded_cases i with here | here | here <;> rw [here]
    · exact twelve
    · exact one
    · exact none
  data := by
    have data : ∀ ex : Extent, ex.exLength = 1 ∨ ex.exLength = 2 → 5 ≤ ex.exBn →
        ex.exBn + ex.exLength ≤ 20 → InData crowded.vol.efs.toGeometry ex := by
      intro ex length low high
      have group : crowded.vol.efs.bbtocg ex.exBn = 0 :=
        Nat.div_eq_of_lt (show ex.exBn - 4 < 16 by omega)
      refine ⟨?_, ?_, ?_, by omega, ?_⟩
      · rw [group]
        decide
      · rw [group]
        exact low
      · rw [group]
        exact high
      · exact Nat.le_trans (show ex.exLength ≤ 2 by omega) (by decide)
    have small : ∀ i, ∀ ex ∈ (crowded.inodes i).owned, (ex.exLength = 1 ∨ ex.exLength = 2) ∧
        5 ≤ ex.exBn ∧ ex.exBn + ex.exLength ≤ 20 := by
      intro i
      rcases crowded_cases i with here | here | here <;> rw [here] <;> decide
    intro i ex mem
    obtain ⟨length, low, high⟩ := small i ex mem
    exact data ex length low high
  ledger := by
    have owner : ∀ i, ∀ b ∈ blocksOf (crowded.inodes i).owned,
        6 ≤ b ∧ i = if b < 18 then 2 else 3 := by
      intro i b mem
      unfold crowded at mem
      dsimp only at mem
      split at mem
      next two =>
        have range : ∀ b ∈ blocksOf twelvePieces.owned, 6 ≤ b ∧ b < 18 := by decide
        exact ⟨(range b mem).1, by rw [if_pos (range b mem).2, two]⟩
      next =>
        split at mem
        next three =>
          have range : ∀ b ∈ blocksOf onePiece.owned, 6 ≤ b ∧ ¬b < 18 := by decide
          exact ⟨(range b mem).1, by rw [if_neg (range b mem).2, three]⟩
        next => cases mem
    refine ⟨⟨?_, ?_, ?_⟩, ?_⟩
    · intro i
      rcases crowded_cases i with here | here | here <;> rw [here] <;> decide
    · intro i j different b left right
      exact different ((owner i b left).2.trans (owner j b right).2.symm)
    · intro i b mem
      have high := (owner i b mem).1
      exact decide_eq_false (show ¬b = 5 by omega)
    · rintro b ⟨g, inside, low, high⟩ clear
      have group : g = 0 := Nat.lt_one_iff.mp inside
      subst group
      have free : ¬b = 5 := of_decide_eq_false clear
      have range : 5 ≤ b ∧ b < 20 := ⟨low, high⟩
      have all : ∀ b < 20, 5 ≤ b → b ≠ 5 →
          b ∈ blocksOf (crowded.inodes 2).owned ∨ b ∈ blocksOf (crowded.inodes 3).owned := by decide
      rcases all b range.2 range.1 free with two | three
      · exact ⟨2, two⟩
      · exact ⟨3, three⟩


theorem owned_exactly_once_crowded :
    let s' := Run.exec (System.step production) crowded [.write 2 6144 512, .setsize 3 0]
    (∀ i k j l b, s'.Owns i k b → s'.Owns j l b → i = j ∧ k = l) ∧
      ∀ g b, s'.vol.efs.InArea g b →
        (s'.vol.efs.fsDmap b = false ↔ ∃ i k, s'.Owns i k b ∧
          ∀ j l, s'.Owns j l b → i = j ∧ k = l) :=
  owned_exactly_once production crowded [.write 2 6144 512, .setsize 3 0] crowded_consistent
    (by decide +kernel)

/-- A write takes the last free block for an indirect extent and fails, and
    another after some blocks were freed takes a second indirect extent: the
    first is in use and nobody's. -/
theorem forgotten_block : crowded.Consistent ∧
    let s' := Run.exec (System.step production) crowded
      [.write 2 6144 512, .setsize 3 0, .write 2 6144 512]
    s'.vol.efs.InArea 0 5 ∧ s'.vol.efs.fsDmap 5 = false ∧ ∀ i k, ¬s'.Owns i k 5 := by
  refine ⟨crowded_consistent, by decide +kernel, by decide +kernel, ?_⟩
  have others : ∀ i, i ≠ 2 → i ≠ 3 → (Run.exec (System.step production) crowded
      [.write 2 6144 512, .setsize 3 0, .write 2 6144 512]).inodes i = noPiece := by
    intro i two three
    simp only [Run.exec_cons, Run.exec_nil, System.step, System.put, Function.update_of_ne two,
      Function.update_of_ne three]
    unfold crowded
    dsimp only
    rw [if_neg two, if_neg three]
  rintro i k ⟨ex, here, inside⟩
  have apart : ∀ ex ∈ ((Run.exec (System.step production) crowded
      [.write 2 6144 512, .setsize 3 0, .write 2 6144 512]).inodes i).owned,
      ¬(ex.exBn ≤ 5 ∧ 5 < ex.exBn + ex.exLength) := by
    rcases eq_or_ne i 2 with rfl | two
    · decide +kernel
    · rcases eq_or_ne i 3 with rfl | three
      · decide +kernel
      · rw [others i two three]
        decide
  exact apart ex (List.mem_of_getElem? here) inside

/-- One group of two data blocks, both free. -/
def twoFree : Superblock where
  fsSize := 7
  fsFirstcg := 4
  fsCgfsize := 3
  fsCgisize := 1
  fsNcg := 1
  fsBmsize := 1
  size_eq := rfl
  bitmap_covers := by decide
  bitmap_limit := by decide
  bitmap_before := by decide
  inodes_some := Nat.zero_lt_one
  inodes_fit := by decide
  fsTfree := 2
  fsTinode := 1
  dmap := fun b => 5 ≤ b && b < 7

/-- Nothing but empty files. -/
def vacant : System where
  vol := ⟨efsMountany production twoFree, fun _ => 0, fun _ _ => 1, 0, Extent.null⟩
  inodes := fun i => { noPiece with iNumber := i, iFtype := .ifreg }

theorem vacant_consistent : vacant.Consistent where
  sound := (efsMountany_ok production twoFree).sound
  sane := rfl
  shape := fun _ => ⟨trivial, fun _ mem => (by cases mem), Nat.zero_le _, Nat.zero_le _,
    fun some => absurd rfl some, fun many => absurd many (Nat.not_lt_zero _)⟩
  data := fun _ ex mem => by cases mem
  ledger := by
    refine ⟨⟨fun _ => List.nodup_nil, fun _ _ _ => List.disjoint_nil_left _, fun _ b mem => by cases mem⟩,
      ?_⟩
    rintro b ⟨g, inside, low, high⟩ clear
    have group : g = 0 := Nat.lt_one_iff.mp inside
    subst group
    have range : 5 ≤ b ∧ b < 7 := ⟨low, high⟩
    have free : vacant.vol.efs.fsDmap b = true :=
      Bool.and_eq_true_iff.mpr ⟨decide_eq_true range.1, decide_eq_true range.2⟩
    rw [free] at clear
    cases clear

end Irix.ExtentFs
