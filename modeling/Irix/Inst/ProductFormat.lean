import Irix.Inst.Product
import Mathlib.Algebra.Order.BigOperators.Group.List

/-! # Reading what was written of a product

`readprod` undoes `writeprod` as long as no subsystem has two groups of
prerequisites: the loop over the groups writes only every other one of them, after
the count of all.
-/

namespace Irix.Inst

open Lib Lib.Reader Lib.Compare

/-! ## What fits into the format -/

/-- A number that a `short` holds and that is not taken for a failure. -/
def FitsShort (n : Int) : Prop := 0 ≤ n ∧ n < 2 ^ 15

def FitsLong (n : Int) : Prop := 0 ≤ n ∧ n < 2 ^ 31

instance : DecidablePred FitsShort := fun n => inferInstanceAs (Decidable (0 ≤ n ∧ n < 2 ^ 15))

instance : DecidablePred FitsLong := fun n => inferInstanceAs (Decidable (0 ≤ n ∧ n < 2 ^ 31))

@[mk_iff] structure Mark.Fits (mk : Mark) : Prop where
  pname : Inst.Fits mk.pname
  iname : Inst.Fits mk.iname
  sname : Inst.Fits mk.sname
  lowvers : FitsLong mk.lowvers
  highvers : FitsLong mk.highvers

/-- A table that a `short` counts, with entries that fit. -/
@[mk_iff] structure FitsTable {α : Type} (fits : α → Prop) (l : List α) : Prop where
  counted : l.length < 2 ^ 15
  each : ∀ a ∈ l, fits a

instance (mk : Mark) : Decidable mk.Fits := decidable_of_iff' _ (Mark.fits_iff mk)

instance {α : Type} {fits : α → Prop} [DecidablePred fits] (l : List α) :
    Decidable (FitsTable fits l) := decidable_of_iff' _ (fitsTable_iff fits l)

@[mk_iff] structure Subsys.Fits (ss : Subsys) : Prop where
  flags : FitsShort ss.flags
  name : Inst.Fits ss.name
  id : Inst.Fits ss.id
  exp : Inst.Fits ss.exp
  instdate : FitsLong ss.instdate
  rep : FitsTable Mark.Fits ss.rep
  prereq : FitsTable (fun pr : Prereq => FitsTable Mark.Fits pr.pq) ss.prereq

instance (ss : Subsys) : Decidable ss.Fits := decidable_of_iff' _ (Subsys.fits_iff ss)

@[mk_iff] structure Image.Fits (im : Image) : Prop where
  flags : FitsShort im.flags
  name : Inst.Fits im.name
  id : Inst.Fits im.id
  format : FitsShort im.format
  order : FitsShort im.order
  version : FitsLong im.version
  length : FitsLong im.length
  padsize : FitsLong im.padsize
  subsys : FitsTable Subsys.Fits im.subsys

instance (im : Image) : Decidable im.Fits := decidable_of_iff' _ (Image.fits_iff im)

@[mk_iff] structure Prod.Fits (pr : Prod) : Prop where
  name : Inst.Fits pr.name
  id : Inst.Fits pr.id
  flags : FitsShort pr.flags
  image : FitsTable Image.Fits pr.image

instance (pr : Prod) : Decidable pr.Fits := decidable_of_iff' _ (Prod.fits_iff pr)

/-! ## Deleted entries removed and tables sorted -/

section

variable (q : Qsort)

def Prereq.tidy (pr : Prereq) : Prereq := ⟨q.sort cmpmk pr.pq⟩

def Subsys.tidy (ss : Subsys) : Subsys :=
  { ss with rep := q.sort cmpmk ss.rep, prereq := ss.prereq.map (Prereq.tidy q) }

/-- The subsystems that are not deleted, sorted. -/
def Image.kept (im : Image) : List Subsys :=
  (q.sort cmpss im.subsys).filter fun ss => !deleted ss.flags

def Image.tidy (im : Image) : Image := { im with subsys := (im.kept q).map (Subsys.tidy q) }

/-- The images that are not deleted, sorted. -/
def Prod.kept (pr : Prod) : List Image :=
  (q.sort cmpim pr.image).filter fun im => !deleted im.flags

def Prod.tidy (pr : Prod) : Prod := { pr with image := (pr.kept q).map (Image.tidy q) }

end

/-- No subsystem that is written has two groups of prerequisites. -/
def Prod.Single (pr : Prod) : Prop :=
  ∀ im ∈ pr.image, deleted im.flags = false → ∀ ss ∈ im.subsys, deleted ss.flags = false →
    ss.prereq.length ≤ 1

instance (pr : Prod) : Decidable pr.Single := by
  unfold Prod.Single
  infer_instance

section

variable {q : Qsort}

theorem sort_length {α : Type} (cmp : α → α → Int) (l : List α) :
    (q.sort cmp l).length = l.length := (q.perm cmp l).length_eq

theorem mem_sort {α : Type} {cmp : α → α → Int} {l : List α} {a : α} :
    a ∈ q.sort cmp l ↔ a ∈ l := (q.perm cmp l).mem_iff

theorem kept_length {α : Type} (cmp : α → α → Int) (l : List α) (live : α → Bool) :
    ((q.sort cmp l).filter live).length = (l.filter live).length :=
  ((q.perm cmp l).filter live).length_eq

/-! ## Each entry is read as it was written -/

theorem reads_mark {mk : Mark} (fits : mk.Fits) : Reads readmark (writemark mk) mk :=
  (reads_str fits.pname).bind <| (reads_str fits.iname).bind <| (reads_str fits.sname).bind <|
    (reads_long fits.lowvers.1 fits.lowvers.2).bind <|
      (reads_long fits.highvers.1 fits.highvers.2).pure _

/-- A table of entries read one by one. -/
theorem reads_table {α β : Type} {p : Reader UInt8 β} {w : α → List UInt8} {v : α → β}
    {l : List α} (counted : l.length < 2 ^ 15) (each : ∀ a ∈ l, Reads p (w a) (v a)) :
    Reads (do let n ← readshort; times p n.toNat) (putshort l.length ++ l.flatMap w)
      (l.map v) := by
  have count : Reads readshort (putshort l.length) l.length := reads_short (by omega) (by omega)
  refine count.bind ?_
  rw [Int.toNat_natCast]
  exact reads_times each

theorem reads_marks {mks : List Mark} (fits : FitsTable Mark.Fits mks) :
    Reads readmarks (writemarks q mks) (q.sort cmpmk mks) := by
  have each : ∀ mk ∈ q.sort cmpmk mks, Reads readmark (writemark mk) (id mk) :=
    fun mk listed => reads_mark (fits.each mk (mem_sort.mp listed))
  have table := reads_table (by rw [sort_length]; exact fits.counted) each
  rw [sort_length, List.map_id] at table
  exact table

theorem writegroups_single {prereq : List Prereq} (single : prereq.length ≤ 1) :
    writegroups q prereq = prereq.flatMap fun pr => writemarks q pr.pq := by
  match prereq with
  | [] => rfl
  | [pr] => rw [writegroups, List.flatMap_cons, List.flatMap_nil, List.append_nil]
  | _ :: _ :: rest => simp at single

theorem reads_prereqs {ss : Subsys} (fits : ss.Fits) (single : ss.prereq.length ≤ 1) :
    Reads readprereqs (writeprereqs q ss) (ss.prereq.map (Prereq.tidy q)) := by
  rw [writeprereqs, writegroups_single single]
  exact reads_table fits.prereq.counted fun pr listed =>
    (reads_marks (fits.prereq.each pr listed)).pure _

theorem reads_subsys {ss : Subsys} (fits : ss.Fits) (single : ss.prereq.length ≤ 1)
    (noValue : Int) (prName imName : Str) (imVersion imLength : Int) :
    Reads (readsubsys noValue formatProd prName imName imVersion imLength) (writesubsys q ss)
      (ss.tidy q) :=
  (reads_short fits.flags.1 fits.flags.2).bind <| (reads_str fits.name).bind <|
    (reads_str fits.id).bind <| (reads_str fits.exp).bind <|
      (reads_long fits.instdate.1 fits.instdate.2).bind <| (reads_marks fits.rep).bind <|
        (reads_prereqs fits single).pure _

theorem reads_image {im : Image} (fits : im.Fits)
    (single : ∀ ss ∈ im.subsys, deleted ss.flags = false → ss.prereq.length ≤ 1) (noValue : Int)
    (prName : Str) :
    Reads (readimage noValue formatProd prName) (writeimage q im) (im.tidy q) := by
  have table := reads_table (p := readsubsys noValue formatProd prName im.name im.version im.length)
    (w := writesubsys q) (v := Subsys.tidy q) (l := im.kept q) ?_ ?_
  · rw [Image.kept, kept_length] at table
    exact (reads_short fits.flags.1 fits.flags.2).bind <| (reads_str fits.name).bind <|
      (reads_str fits.id).bind <| (reads_short fits.format.1 fits.format.2).bind <|
        (reads_short fits.order.1 fits.order.2).bind <|
          (reads_long fits.version.1 fits.version.2).bind <|
            (reads_long fits.length.1 fits.length.2).bind <|
              (reads_long fits.padsize.1 fits.padsize.2).bind <| table.pure _
  · rw [Image.kept, kept_length]
    exact lt_of_le_of_lt (List.length_filter_le ..) fits.subsys.counted
  · intro ss listed
    obtain ⟨listed, live⟩ := List.mem_filter.mp listed
    have among := mem_sort.mp listed
    exact reads_subsys (fits.subsys.each ss among) (single ss among (by simpa using live)) _ _ _
      _ _

theorem reads_prod {pr : Prod} (fits : pr.Fits) (live : deleted pr.flags = false)
    (single : pr.Single) (noValue : Int) :
    Reads (readprod noValue) (writeprod q pr) (pr.tidy q) := by
  have table := reads_table (p := readimage noValue formatProd pr.name) (w := writeimage q)
    (v := Image.tidy q) (l := pr.kept q) ?_ ?_
  · rw [Prod.kept, kept_length] at table
    rw [writeprod, live]
    exact (reads_short (by decide) (by decide)).bind <| reads_check rfl <|
      (reads_short (by decide) (by decide)).bind <| reads_check rfl <|
        (reads_str fits.name).bind <| (reads_str fits.id).bind <|
          (reads_short fits.flags.1 fits.flags.2).bind <| table.pure _
  · rw [Prod.kept, kept_length]
    exact lt_of_le_of_lt (List.length_filter_le ..) fits.image.counted
  · intro im listed
    obtain ⟨listed, live⟩ := List.mem_filter.mp listed
    have among := mem_sort.mp listed
    exact reads_image (fits.image.each im among) (single im among (by simpa using live)) _ _

/-! ## Every entry is paid for -/

section

/-- The bytes for a string. -/
def strSize (p : Str) : Nat := 2 + p.length

def Mark.size (mk : Mark) : Nat :=
  strSize mk.pname + strSize mk.iname + strSize mk.sname + 4 + 4

def tableSize {α : Type} (size : α → Nat) (l : List α) : Nat := 2 + (l.map size).sum

def Subsys.size (ss : Subsys) : Nat :=
  2 + strSize ss.name + strSize ss.id + strSize ss.exp + 4 + tableSize Mark.size ss.rep +
    tableSize (fun pr : Prereq => tableSize Mark.size pr.pq) ss.prereq

def Image.size (im : Image) : Nat :=
  2 + strSize im.name + strSize im.id + 2 + 2 + 4 + 4 + 4 + tableSize Subsys.size im.subsys

def Prod.size (pr : Prod) : Nat :=
  strSize pr.name + strSize pr.id + 2 + tableSize Image.size pr.image

theorem spends_table {α : Type} {p : Reader UInt8 α} {size : α → Nat}
    (each : ∀ e, Spends p e fun a => e + size a) (e : Nat) :
    Spends (do let n ← readshort; times p n.toNat) e fun l => e + tableSize size l := by
  refine (spends_short e).bind fun n => ?_
  have rest := spends_times each n.toNat (e + 2)
  intro s l left result
  have spent := rest s l left result
  dsimp only at spent
  simp only [tableSize]
  omega

theorem spends_mark (e : Nat) : Spends readmark e fun mk => e + mk.size := by
  refine (spends_str e).bind fun pname => (spends_str _).bind fun iname =>
    (spends_str _).bind fun sname => (spends_long _).bind fun lowvers =>
      (spends_long _).bind fun highvers => spends_pure ?_
  simp only [Mark.size, strSize]
  omega

theorem spends_marks (e : Nat) : Spends readmarks e fun mks => e + tableSize Mark.size mks :=
  spends_table spends_mark e

theorem spends_prereqs (e : Nat) : Spends readprereqs e fun prs =>
    e + tableSize (fun pr : Prereq => tableSize Mark.size pr.pq) prs := by
  have each : ∀ e, Spends (do let pq ← readmarks; pure (⟨pq⟩ : Prereq)) e
      fun pr => e + tableSize Mark.size pr.pq :=
    fun e => (spends_marks e).bind fun _ => spends_pure (Nat.le_refl _)
  exact spends_table each e

theorem spends_subsys (noValue : Int) (prName imName : Str) (imVersion imLength : Int) (e : Nat) :
    Spends (readsubsys noValue formatProd prName imName imVersion imLength) e
      fun ss => e + ss.size := by
  refine (spends_short e).bind fun flags => (spends_str _).bind fun name =>
    (spends_str _).bind fun id => (spends_str _).bind fun exp =>
      (spends_long _).bind fun instdate => (spends_marks _).bind fun rep =>
        (spends_prereqs _).bind fun prereq => spends_pure ?_
  simp only [Subsys.size, strSize]
  omega

theorem spends_image (noValue : Int) (prName : Str) (e : Nat) :
    Spends (readimage noValue formatProd prName) e fun im => e + im.size := by
  refine (spends_short e).bind fun flags => (spends_str _).bind fun name =>
    (spends_str _).bind fun id => (spends_short _).bind fun format =>
      (spends_short _).bind fun order => (spends_long _).bind fun version =>
        (spends_long _).bind fun length => (spends_long _).bind fun padsize =>
          (spends_table (spends_subsys _ _ _ _ _) _).bind fun subsys => spends_pure ?_
  simp only [Image.size, strSize]
  omega

/-- What is read behind the format number, which is the present one. -/
theorem spends_prod {noValue : Int} {s rest : List UInt8} {pr : Prod}
    (result : readprod noValue (putshort magicProd ++ (putshort formatProd ++ s)) = some (pr, rest)) :
    pr.size + rest.length ≤ s.length := by
  have body : Spends (do
      let name ← getstr
      let id ← getstr
      let flags ← readshort
      let image ← readimages noValue formatProd name
      pure (⟨name, id, flags, image⟩ : Prod)) 0 Prod.size := by
    refine (spends_str 0).bind fun name => (spends_str _).bind fun id =>
      (spends_short _).bind fun flags => (spends_table (spends_image _ _) _).bind fun image =>
        spends_pure ?_
    simp only [Prod.size, strSize]
    omega
  have spent := body s pr rest
  rw [Nat.zero_add] at spent
  refine spent ?_
  rw [readprod, (reads_short (t := magicProd) (by decide) (by decide)).run,
    check_run (decide_eq_true rfl), (reads_short (t := formatProd) (by decide) (by decide)).run,
    check_run (decide_eq_true (Int.le_refl _))] at result
  exact result

/-! ## What is written -/

theorem putstr_length {p : Str} (fits : Fits p) : (putstr p).length = strSize p := by
  have len : short p.length = p.length := short_eq (by omega) (by have := fits.counted; omega)
  simp only [putstr, len, strSize, List.length_append, putshort_length]
  split
  next empty =>
    rw [Int.natCast_eq_zero.mp empty]
    rfl
  next => rw [Int.toNat_natCast, List.take_length]

theorem writemark_length {mk : Mark} (fits : mk.Fits) : (writemark mk).length = mk.size := by
  simp only [writemark, List.length_append, putstr_length fits.pname, putstr_length fits.iname,
    putstr_length fits.sname, putlong_length, Mark.size]
  omega

theorem flatMap_length {α : Type} {w : α → List UInt8} {size : α → Nat} {l : List α}
    (each : ∀ a ∈ l, (w a).length = size a) : (l.flatMap w).length = (l.map size).sum := by
  rw [List.length_flatMap, List.map_congr_left each]

theorem writemarks_length {mks : List Mark} (fits : FitsTable Mark.Fits mks) :
    (writemarks q mks).length = tableSize Mark.size (q.sort cmpmk mks) := by
  have each : ∀ mk ∈ q.sort cmpmk mks, (writemark mk).length = mk.size :=
    fun mk listed => writemark_length (fits.each mk (mem_sort.mp listed))
  rw [writemarks, List.length_append, putshort_length, flatMap_length each, tableSize]

/-- The groups that are left out are not paid for. -/
theorem writegroups_length {prereq : List Prereq}
    (fits : ∀ pr ∈ prereq, FitsTable Mark.Fits pr.pq) :
    (writegroups q prereq).length + 2 * (prereq.length / 2) ≤
      (prereq.map fun pr => tableSize Mark.size (q.sort cmpmk pr.pq)).sum := by
  induction prereq using writegroups.induct with
  | case1 => rfl
  | case2 pr =>
    have here := writemarks_length (q := q) (fits pr (List.mem_singleton_self pr))
    simp only [writegroups, here, List.length_singleton, List.map_cons, List.map_nil,
      List.sum_cons, List.sum_nil]
    omega
  | case3 pr pr' rest ih =>
    have here := writemarks_length (q := q) (fits pr (List.mem_cons_self ..))
    have behind := ih fun pr listed =>
      fits pr (List.mem_cons_of_mem _ (List.mem_cons_of_mem _ listed))
    have left : 2 ≤ tableSize Mark.size (q.sort cmpmk pr'.pq) := Nat.le_add_right ..
    simp only [writegroups, List.length_append, here, List.length_cons, List.map_cons,
      List.sum_cons]
    omega

theorem writesubsys_length {ss : Subsys} (fits : ss.Fits) :
    (writesubsys q ss).length + 2 * (ss.prereq.length / 2) ≤ (ss.tidy q).size := by
  have groups := writegroups_length (q := q) fits.prereq.each
  have rep := writemarks_length (q := q) fits.rep
  simp only [writesubsys, writeprereqs, List.length_append, putshort_length, putlong_length,
    putstr_length fits.name, putstr_length fits.id, putstr_length fits.exp, rep, Subsys.size,
    Subsys.tidy, tableSize, List.map_map, Function.comp_def, Prereq.tidy] at groups ⊢
  omega

/-- Entries that are written with something left out. -/
theorem flatMap_lost {α : Type} {w : α → List UInt8} {size lost : α → Nat} {l : List α}
    (each : ∀ a ∈ l, (w a).length + lost a ≤ size a) :
    (l.flatMap w).length + (l.map lost).sum ≤ (l.map size).sum := by
  induction l with
  | nil => exact Nat.le_refl _
  | cons a l ih =>
    have here := each a (List.mem_cons_self ..)
    have behind := ih fun b listed => each b (List.mem_cons_of_mem _ listed)
    simp only [List.flatMap_cons, List.length_append, List.map_cons, List.sum_cons]
    omega

/-- At least the bytes for the counts of the groups that are left out. -/
def Subsys.lost (ss : Subsys) : Nat := 2 * (ss.prereq.length / 2)

def Image.lost (q : Qsort) (im : Image) : Nat := ((im.kept q).map Subsys.lost).sum

def Prod.lost (q : Qsort) (pr : Prod) : Nat := ((pr.kept q).map (Image.lost q)).sum

theorem mem_kept_subsys {im : Image} {ss : Subsys} :
    ss ∈ im.kept q ↔ ss ∈ im.subsys ∧ deleted ss.flags = false := by
  simp only [Image.kept, List.mem_filter, mem_sort, Bool.not_eq_true']

theorem mem_kept_image {pr : Prod} {im : Image} :
    im ∈ pr.kept q ↔ im ∈ pr.image ∧ deleted im.flags = false := by
  simp only [Prod.kept, List.mem_filter, mem_sort, Bool.not_eq_true']

theorem writeimage_length {im : Image} (fits : im.Fits) :
    (writeimage q im).length + im.lost q ≤ (im.tidy q).size := by
  have table : ((im.kept q).flatMap (writesubsys q)).length + ((im.kept q).map Subsys.lost).sum ≤
      ((im.kept q).map fun ss => (ss.tidy q).size).sum :=
    flatMap_lost fun ss listed =>
      writesubsys_length (fits.subsys.each ss (mem_kept_subsys.mp listed).1)
  simp only [writeimage, writesubsyss, List.length_append, putshort_length, putlong_length,
    putstr_length fits.name, putstr_length fits.id, Image.size, Image.tidy, tableSize,
    List.map_map, Function.comp_def, Image.lost]
  simp only [Image.kept] at *
  omega

/-- What is behind the format number. -/
theorem writeimages_length {pr : Prod} (fits : pr.Fits) :
    (putstr pr.name ++ (putstr pr.id ++ (putshort pr.flags ++ writeimages q pr))).length +
      pr.lost q ≤ (pr.tidy q).size := by
  have table : ((pr.kept q).flatMap (writeimage q)).length + ((pr.kept q).map (Image.lost q)).sum ≤
      ((pr.kept q).map fun im => (im.tidy q).size).sum :=
    flatMap_lost fun im listed =>
      writeimage_length (fits.image.each im (mem_kept_image.mp listed).1)
  simp only [writeimages, List.length_append, putshort_length, putstr_length fits.name,
    putstr_length fits.id, Prod.size, Prod.tidy, tableSize, List.map_map, Function.comp_def,
    Prod.lost]
  simp only [Prod.kept] at *
  omega

theorem lost_single {pr : Prod} (nothing : pr.lost q = 0) : pr.Single := by
  intro im among live ss listed live'
  have images := List.sum_eq_zero_iff_forall_eq_nat.mp nothing
  have image := images _ (List.mem_map_of_mem (mem_kept_image.mpr ⟨among, live⟩))
  have subsyss := List.sum_eq_zero_iff_forall_eq_nat.mp image
  have here := subsyss _ (List.mem_map_of_mem (mem_kept_subsys.mpr ⟨listed, live'⟩))
  simp only [Subsys.lost] at here
  omega

end

/-! ## The tables are sorted -/

structure Subsys.Sorted (ss : Subsys) : Prop where
  rep : ss.rep.Pairwise fun m1 m2 => cmpmk m1 m2 ≤ 0
  prereq : ∀ pr ∈ ss.prereq, pr.pq.Pairwise fun m1 m2 => cmpmk m1 m2 ≤ 0

structure Image.Sorted (im : Image) : Prop where
  subsys : im.subsys.Pairwise fun s1 s2 => cmpss s1 s2 ≤ 0
  each : ∀ ss ∈ im.subsys, ss.Sorted

structure Prod.Sorted (pr : Prod) : Prop where
  image : pr.image.Pairwise fun i1 i2 => cmpim i1 i2 ≤ 0
  each : ∀ im ∈ pr.image, im.Sorted

/-- Later numbers come first. -/
theorem lawful_long : Lawful FitsLong fun x y => long (y - x) := by
  have exact : ∀ x y, FitsLong x → FitsLong y → long (y - x) = y - x := by
    rintro x y ⟨low, high⟩ ⟨low', high'⟩
    exact Int.bmod_eq_of_le (by omega) (by omega)
  constructor
  · intro x y here there
    rw [exact x y here there, exact y x there here]
    omega
  · intro x y z here there last
    rw [exact x y here there, exact y z there last, exact x z here last]
    omega

theorem lawful_cmpmk : Lawful Mark.Fits cmpmk :=
  ((lawful_strcmp.on Mark.pname).mono fun _ fits => fits.pname.whole).andThen <|
    ((lawful_strcmp.on Mark.iname).mono fun _ fits => fits.iname.whole).andThen <|
      ((lawful_strcmp.on Mark.sname).mono fun _ fits => fits.sname.whole).andThen <|
        ((lawful_long.on Mark.lowvers).mono fun _ fits => fits.lowvers).andThen <|
          (lawful_long.on Mark.highvers).mono fun _ fits => fits.highvers

theorem lawful_cmpss : Lawful Subsys.Fits cmpss :=
  ((lawful_strcmp.on Subsys.name).mono fun _ fits => fits.name.whole).andThen <|
    (lawful_long.on Subsys.instdate).mono fun _ fits => fits.instdate

theorem lawful_cmpim : Lawful Image.Fits cmpim :=
  ((lawful_strcmp.on Image.name).mono fun _ fits => fits.name.whole).andThen <|
    (lawful_long.on Image.version).mono fun _ fits => fits.version

theorem marks_sorted {mks : List Mark} (fits : FitsTable Mark.Fits mks) :
    (q.sort cmpmk mks).Pairwise fun m1 m2 => cmpmk m1 m2 ≤ 0 :=
  q.sorted cmpmk mks (lawful_cmpmk.mono fits.each)

theorem subsys_sorted {ss : Subsys} (fits : ss.Fits) : (ss.tidy q).Sorted := by
  refine ⟨marks_sorted fits.rep, fun pr listed => ?_⟩
  obtain ⟨pr, among, rfl⟩ := List.mem_map.mp listed
  exact marks_sorted (fits.prereq.each pr among)

theorem image_sorted {im : Image} (fits : im.Fits) : (im.tidy q).Sorted := by
  refine ⟨?_, fun ss listed => ?_⟩
  · have sorted := q.sorted cmpss im.subsys (lawful_cmpss.mono fits.subsys.each)
    exact List.pairwise_map.mpr (sorted.filter _)
  · obtain ⟨ss, among, rfl⟩ := List.mem_map.mp listed
    exact subsys_sorted (fits.subsys.each ss (mem_kept_subsys.mp among).1)

theorem prod_sorted {pr : Prod} (fits : pr.Fits) : (pr.tidy q).Sorted := by
  refine ⟨?_, fun im listed => ?_⟩
  · have sorted := q.sorted cmpim pr.image (lawful_cmpim.mono fits.image.each)
    exact List.pairwise_map.mpr (sorted.filter _)
  · obtain ⟨im, among, rfl⟩ := List.mem_map.mp listed
    exact image_sorted (fits.image.each im (mem_kept_image.mp among).1)

end

/-- `readprod` undoes `writeprod` exactly when something is written and no group of
    prerequisites is left out. -/
theorem readprod_undoes_writeprod (q : Qsort) (noValue : Int) (pr : Prod) (fits : pr.Fits) :
    ((∀ rest, readprod noValue (writeprod q pr ++ rest) = some (pr.tidy q, rest)) ∧
        (pr.tidy q).Sorted) ↔
      deleted pr.flags = false ∧ pr.Single := by
  constructor
  · rintro ⟨reads, -⟩
    have result := reads []
    rw [List.append_nil, writeprod] at result
    split at result
    next => cases result
    next live =>
      have spent := spends_prod result
      have written := writeimages_length (q := q) fits
      exact ⟨by simpa using live, lost_single (q := q) (by omega)⟩
  · rintro ⟨live, single⟩
    exact ⟨reads_prod fits live single noValue, prod_sorted fits⟩

/-- A product with an image of two subsystems, the second of them deleted. -/
def eoe : Prod :=
  ⟨[101, 111, 101], [], 4, [⟨1, [49], [105], 1, 0, 3, 4096, 4096,
    [⟨2, [98], [], [120], 7, [⟨[101], [49], [97], 0, 2⟩], [⟨[⟨[99], [49], [97], 1, 9⟩]⟩]⟩,
      ⟨32, [97], [], [], 8, [], [⟨[]⟩, ⟨[]⟩]⟩]⟩]⟩

theorem readprod_undoes_writeprod_eoe :
    (∀ rest, readprod 0 (writeprod insertion eoe ++ rest) = some (eoe.tidy insertion, rest)) ∧
      (eoe.tidy insertion).Sorted :=
  (readprod_undoes_writeprod insertion 0 eoe (by decide)).mpr ⟨rfl, by decide⟩

/-- A product with a subsystem that needs one of two others. -/
def eitherOr : Prod :=
  ⟨[112], [], 4, [⟨1, [105], [], 1, 0, 3, 4096, 4096,
    [⟨2, [115], [], [], 7, [], [⟨[⟨[97], [97], [97], 0, 9⟩]⟩, ⟨[⟨[98], [98], [98], 0, 9⟩]⟩]⟩]⟩]⟩

/-- The second group is not written, and the stream ends before it. -/
theorem group_left_out : eitherOr.Fits ∧ deleted eitherOr.flags = false ∧
    readprod 0 (writeprod insertion eitherOr) = none :=
  ⟨by decide, rfl, by decide⟩

end Irix.Inst
