import Irix.Pncc.Chains

/-! # Runs of the name cache

Any calls may follow each other.  An entry keeps the capability that its user
gives it, so the capabilities stay one of a kind in the runs where no user
gives one that a block has, or one that the generator has yet to come to.  What
the generator gives is new by itself: it is past the capabilities of the valid
blocks, and where it starts again there are none.
-/

namespace Irix.Pncc

open Function Lib Lib.Linked Lib.Buckets

section

variable {mount : Dev → Int} {size : Nat} {s s' : Cache size} {l l' pre post : List (Fin size)}
  {lists : Fin NC_NBUCKETS → List (Fin size)} {x nc : Fin size}

/-! ## A new entry -/

theorem detach_block : (s.detach x).block = s.block := by
  simp only [Cache.detach]
  split
  next => rfl
  next => rfl

theorem detach_capgen : (s.detach x).capgen = s.capgen := by
  simp only [Cache.detach]
  split
  next => rfl
  next => rfl

theorem Linked.detach (linked : Linked mount s (pre ++ x :: post) lists) :
    ∃ lists', Linked mount (s.detach x) (pre ++ post) lists' := by
  simp only [Cache.detach]
  split
  next valid =>
    obtain ⟨front, behind, bucket⟩ := linked.bucket (by simp) valid
    exact ⟨_, linked.takeValid bucket⟩
  next invalid => exact ⟨lists, linked.takeInvalid (Bool.not_eq_true _ ▸ invalid)⟩

/-- The capability that an entry gets, unless the generator wraps around. -/
def Cache.given (s : Cache size) (val : Ncvalue) : Ncap :=
  if val.cap = 0 then s.capgen + 1 else val.cap

/-- The generator goes up until it wraps around. -/
theorem le_next {cap : Ncap} (plain : cap + 1 ≠ 0) : cap ≤ cap + 1 := by
  bv_omega

theorem pnccNewcap_plain (plain : s.capgen + 1 ≠ 0) :
    s.pnccNewcap = ({ s with capgen := s.capgen + 1 }, s.capgen + 1) := by
  simp only [Cache.pnccNewcap, if_neg plain]

theorem pnccNewcap_wrapped (wrapped : s.capgen + 1 = 0) : s.pnccNewcap =
    ({ Cache.pnccPurgedev { s with capgen := s.capgen + 1 } NODEV with capgen := 1 }, 1) := by
  simp only [Cache.pnccNewcap, if_pos wrapped]

theorem capability_plain {val : Ncvalue} (plain : s.given val ≠ 0) :
    (s.capability val).1.block = s.block ∧ (s.capability val).2 = { val with cap := s.given val } := by
  unfold Cache.given at plain ⊢
  by_cases zero : val.cap = 0
  · rw [if_pos zero] at plain ⊢
    simp only [Cache.capability, if_pos zero, pnccNewcap_plain plain, and_self]
  · simp only [Cache.capability, if_neg zero, and_self]

/-- An entry gets a capability.  Around the end of the generator the whole cache is
    purged for it. -/
theorem Linked.capability (linked : Linked mount s l lists) (val : Ncvalue) :
    (∃ l' lists', Linked mount (s.capability val).1 l' lists' ∧ ∀ b, b ∈ l' ↔ b ∈ l) ∧
      (∀ b ∉ l, (s.capability val).1.block b = s.block b) ∧
      (∀ b, (s.capability val).1.isvalid b = true →
        s.isvalid b = true ∧ (s.capability val).1.block b = s.block b) ∧
      (s.capability val).2.cap ≠ 0 ∧
      ((s.capability val).2.cap = s.given val ∧ s.capgen ≤ (s.capability val).1.capgen ∨
        ∀ b ∈ l, (s.capability val).1.isvalid b = false) := by
  have counted : Linked mount { s with capgen := s.capgen + 1 } l lists :=
    ⟨linked.lru, linked.hung, linked.keyed⟩
  by_cases zero : val.cap = 0
  · by_cases wrapped : s.capgen + 1 = 0
    · obtain ⟨⟨⟨l', lists', linked', same⟩, thinned⟩, gone⟩ := counted.pnccPurgedev NODEV
      have taken : s.capability val =
          ({ Cache.pnccPurgedev { s with capgen := s.capgen + 1 } NODEV with capgen := 1 },
            { val with cap := 1 }) := by
        simp only [Cache.capability, if_pos zero, pnccNewcap_wrapped wrapped]
      rw [taken]
      exact ⟨⟨l', lists', ⟨linked'.lru, linked'.hung, linked'.keyed⟩, same⟩, thinned.others,
        thinned.valid, (by decide : (1 : Ncap) ≠ 0), .inr (gone rfl)⟩
    · have taken : s.capability val =
          ({ s with capgen := s.capgen + 1 }, { val with cap := s.capgen + 1 }) := by
        simp only [Cache.capability, if_pos zero, pnccNewcap_plain wrapped]
      rw [taken, Cache.given, if_pos zero]
      exact ⟨⟨l, lists, counted, fun _ => Iff.rfl⟩, fun _ _ => rfl, fun _ valid => ⟨valid, rfl⟩,
        wrapped, .inl ⟨rfl, le_next wrapped⟩⟩
  · have taken : s.capability val = (s, val) := by simp only [Cache.capability, if_neg zero]
    rw [taken, Cache.given, if_neg zero]
    exact ⟨⟨l, lists, linked, fun _ => Iff.rfl⟩, fun _ _ => rfl, fun _ valid => ⟨valid, rfl⟩,
      zero, .inl ⟨rfl, BitVec.le_refl _⟩⟩

/-- The generator has come to the capability of an entry, if it had to one handed in. -/
theorem capability_le {val : Ncvalue} (known : val.cap ≤ s.capgen) :
    (s.capability val).2.cap ≤ (s.capability val).1.capgen := by
  by_cases zero : val.cap = 0
  · by_cases wrapped : s.capgen + 1 = 0
    · simp only [Cache.capability, if_pos zero, pnccNewcap_wrapped wrapped]
      exact BitVec.le_refl _
    · simp only [Cache.capability, if_pos zero, pnccNewcap_plain wrapped]
      exact BitVec.le_refl _
  · simp only [Cache.capability, if_neg zero]
    exact known

/-- What is written to the block of a new entry. -/
def Cache.filled (s : Cache size) (x : Fin size) (dp : Inode) (name : Component) : Cache size :=
  let s := s.detach x
  { s with
    block := update s.block x
      { s.block x with pdev := dp.mdev, pinum := dp.number, name := name.chars } }

/-- The cache of a new entry before its block is put on the lists. -/
def Cache.valued (s : Cache size) (x : Fin size) (dp : Inode) (name : Component) (val : Ncvalue) :
    Cache size :=
  let (s, val) := (s.filled x dp name).capability val
  { s with block := update s.block x { s.block x with val := val } }

theorem filled_capgen (dp : Inode) (name : Component) :
    (s.filled x dp name).capgen = s.capgen := detach_capgen

theorem filled_given (dp : Inode) (name : Component) (val : Ncvalue) :
    (s.filled x dp name).given val = s.given val := by
  simp only [Cache.filled, Cache.given, detach_capgen]

theorem filled_other (dp : Inode) (name : Component) (other : nc ≠ x) :
    (s.filled x dp name).block nc = s.block nc := by
  simp only [Cache.filled, detach_block, update_of_ne other]

/-- The block of a new entry has its name and a capability. -/
theorem Linked.valued (linked : Linked mount s (x :: post) lists) (dp : Inode) (name : Component)
    (val : Ncvalue) :
    (∃ l' lists', Linked mount (s.valued x dp name val) l' lists' ∧ ∀ b, b ∈ l' ↔ b ∈ post) ∧
      (∀ b ≠ x, (s.valued x dp name val).isvalid b = true →
        s.isvalid b = true ∧ (s.valued x dp name val).block b = s.block b) ∧
      (∃ val', (s.valued x dp name val).block x = ⟨dp.number, dp.mdev, name.chars, val'⟩ ∧
        val'.cap ≠ 0 ∧ (val.cap ≤ s.capgen → val'.cap ≤ (s.valued x dp name val).capgen) ∧
        (val'.cap = s.given val ∧ s.capgen ≤ (s.valued x dp name val).capgen ∨
          ∀ b ∈ post, (s.valued x dp name val).isvalid b = false)) := by
  have out : x ∉ post := (List.nodup_cons.mp linked.lru.nodup).1
  obtain ⟨lists', detached⟩ := Linked.detach (show Linked mount s ([] ++ x :: post) lists from linked)
  have filled : Linked mount (s.filled x dp name) post lists' := detached.write out _
  obtain ⟨⟨l', lists'', linked', same⟩, others, kept, nonzero, capable⟩ := filled.capability val
  have known : val.cap ≤ (s.filled x dp name).capgen → _ := capability_le
  rw [filled_capgen] at known
  have out' : x ∉ l' := fun listed => out ((same x).mp listed)
  generalize taken : (s.filled x dp name).capability val = r at *
  have value : s.valued x dp name val =
      { r.1 with block := update r.1.block x { r.1.block x with val := r.2 } } := by
    simp only [Cache.valued, taken]
  rw [value]
  refine ⟨⟨l', lists'', linked'.write out' _, same⟩, fun b other valid => ?_, r.2, ?_, nonzero,
    known, ?_⟩
  · rw [isvalid_update, if_neg other] at valid
    obtain ⟨valid', block⟩ := kept b valid
    rw [Cache.filled, isvalid_update, if_neg other, Cache.isvalid, detach_block] at valid'
    have block' := block.trans (filled_other dp name other)
    exact ⟨valid', (update_of_ne other ..).trans block'⟩
  · have block : r.1.block x = (s.filled x dp name).block x := others x out
    simp only [update_self, block, Cache.filled]
  · rw [filled_given, filled_capgen] at capable
    refine capable.imp_right fun gone b listed => ?_
    rw [isvalid_update, if_neg (ne_of_mem_of_not_mem listed out)]
    exact gone b listed

theorem pnccEnter_eq {dp : Inode} {name : Component} {nce : Ncentry} {hp : Fin NC_NBUCKETS}
    (hash : nce.hash = some hp) (first : s.lru.first = some x) (short : name.len ≤ NC_NAMLEN) :
    (s.pnccEnter dp name nce).1 =
      ((s.valued x dp name nce.val).insHash x hp).insLru x (s.valued x dp name nce.val).lru.last := by
  simp only [Cache.pnccEnter, hash, first, if_neg (Nat.not_lt.mpr short)]
  rfl

theorem Capable.thinned (capable : Capable s) (kept : ∀ b, s'.isvalid b = true →
    s.isvalid b = true ∧ s'.block b = s.block b) : Capable s' := by
  intro nc valid
  obtain ⟨valid', block⟩ := kept nc valid
  obtain ⟨nonzero, single⟩ := capable nc valid'
  rw [block]
  refine ⟨nonzero, fun nc' valid₂ equal => ?_⟩
  obtain ⟨valid₂', block₂⟩ := kept nc' valid₂
  exact single nc' valid₂' (block₂ ▸ equal)

/-- A block gets a capability that the other ones do not have. -/
theorem Capable.add (capable : Capable s) (kept : ∀ b ≠ x, s'.isvalid b = true →
    s.isvalid b = true ∧ s'.block b = s.block b) (nonzero : (s'.block x).val.cap ≠ 0)
    (single : ∀ b ≠ x, s'.isvalid b = true → (s'.block b).val.cap ≠ (s'.block x).val.cap) :
    Capable s' := by
  intro nc valid
  by_cases new : nc = x
  · subst new
    refine ⟨nonzero, fun nc' valid' equal => ?_⟩
    by_contra other
    exact single nc' (Ne.symm other) valid' equal.symm
  · obtain ⟨valid', block⟩ := kept nc new valid
    refine ⟨block ▸ (capable nc valid').1, fun nc' valid₂ equal => ?_⟩
    by_cases new' : nc' = x
    · subst new'
      exact absurd equal (single nc new valid)
    · obtain ⟨valid₂', block₂⟩ := kept nc' new' valid₂
      rw [block, block₂] at equal
      exact (capable nc valid').2 nc' valid₂' equal

/-- What may be asked of an entry: that its bucket is the one of the name, and that
    no valid block has its capability, but for the block that is used for it. -/
def Fitting (mount : Dev → Int) (s : Cache size) (dp : Inode) (name : Component) (nce : Ncentry) :
    Prop :=
  ∀ hp ∈ nce.hash, ∀ x ∈ s.lru.first, name.len ≤ NC_NAMLEN →
    hp = ncBucket mount dp.mdev dp.number name.chars ∧
      ∀ nc ≠ x, s.isvalid nc = true → (s.block nc).val.cap ≠ s.given nce.val

variable (mount) in
theorem valued_home {dp : Inode} {name : Component} {val : Ncvalue}
    (block : s.block x = ⟨dp.number, dp.mdev, name.chars, val⟩) :
    s.isvalid x = true ∧ s.home mount x = ncBucket mount dp.mdev dp.number name.chars := by
  refine ⟨?_, ?_⟩
  · simp only [Cache.isvalid, block, Bool.not_eq_true', List.isEmpty_eq_false_iff]
    exact name.some
  · simp only [Cache.home, block]

theorem WellFormed.pnccEnter {dp : Inode} {name : Component} {nce : Ncentry}
    (wellFormed : WellFormed mount s) (fitting : Fitting mount s dp name nce) :
    WellFormed mount (s.pnccEnter dp name nce).1 := by
  cases hash : nce.hash with
  | none =>
      simp only [Cache.pnccEnter, hash]
      exact wellFormed
  | some hp =>
  cases first : s.lru.first with
  | none =>
      simp only [Cache.pnccEnter, hash, first]
      exact wellFormed
  | some x =>
  by_cases short : name.len ≤ NC_NAMLEN
  · obtain ⟨bucket, unlike⟩ := fitting hp hash x first short
    obtain ⟨⟨l, lists, linked, all⟩, capable⟩ := wellFormed
    obtain ⟨post, rfl⟩ : ∃ post, l = x :: post := by
      rw [linked.first, List.head?_eq_some_iff] at first
      exact first
    have out : x ∉ post := (List.nodup_cons.mp linked.lru.nodup).1
    have behind : ∀ b ≠ x, b ∈ post := fun b other =>
      (List.mem_cons.mp (all b)).resolve_left other
    obtain ⟨⟨l', lists', linked', same⟩, kept, val', block, nonzero, -, capable'⟩ :=
      linked.valued dp name nce.val
    obtain ⟨valid, home⟩ := valued_home mount block
    rw [pnccEnter_eq hash first short]
    generalize s.valued x dp name nce.val = s' at *
    constructor
    · have out' : x ∉ l' := fun listed => out ((same x).mp listed)
      have put := linked'.putValid out' valid
      rw [home, ← bucket] at put
      refine ⟨_, _, put, fun b => ?_⟩
      rw [List.mem_append, same, List.mem_singleton]
      exact (em (b = x)).symm.imp_left (behind b)
    · refine Capable.add (x := x) (s := s) capable kept (block ▸ nonzero) fun b other valid' => ?_
      obtain ⟨old, same'⟩ := kept b other valid'
      rcases capable' with ⟨given, -⟩ | gone
      · have unlike' := unlike b other old
        rw [← given] at unlike'
        rwa [← same', show val'.cap = (s'.block x).val.cap from block ▸ rfl] at unlike'
      · cases (gone b (behind b other)).symm.trans valid'
  · simp only [Cache.pnccEnter, hash, first, if_pos (Nat.lt_of_not_le short)]
    exact wellFormed

/-- Without a wrap of the generator the other blocks stay as they are. -/
theorem valued_plain (dp : Inode) (name : Component) {val : Ncvalue} (plain : s.given val ≠ 0) :
    (∀ b ≠ x, (s.valued x dp name val).block b = s.block b) ∧
      ((s.valued x dp name val).block x).name = name.chars ∧
      ((s.valued x dp name val).block x).val.cap = s.given val := by
  have plain' : (s.filled x dp name).given val ≠ 0 := by rwa [filled_given]
  obtain ⟨block, value⟩ := capability_plain plain'
  simp only [Cache.valued, update_self, block, value, filled_given, and_true]
  refine ⟨fun b other => ?_, ?_⟩
  · rw [update_of_ne other, filled_other dp name other]
  · simp only [Cache.filled, update_self]

/-- An entry that does not fit breaks the cache. -/
theorem not_wellFormed_enter {dp : Inode} {name : Component} {nce : Ncentry}
    (wellFormed : WellFormed mount s) (unfit : ¬ Fitting mount s dp name nce) :
    ¬ WellFormed mount (s.pnccEnter dp name nce).1 := by
  intro wellFormed'
  apply unfit
  intro hp hash x first short
  rw [pnccEnter_eq hash first short] at wellFormed'
  obtain ⟨⟨l', lists', linked', -⟩, capable'⟩ := wellFormed'
  obtain ⟨⟨l, lists, linked, all⟩, capable⟩ := wellFormed
  obtain ⟨post, rfl⟩ : ∃ post, l = x :: post := by
    have first' := linked.first.symm.trans first
    rwa [List.head?_eq_some_iff] at first'
  obtain ⟨-, kept, val', block, -⟩ := linked.valued dp name nce.val
  obtain ⟨valid, home⟩ := valued_home mount block
  constructor
  · -- the bucket that was asked for holds the block
    have link := (linked'.hung.hangs hp).head
    have held : x ∈ lists' hp := List.mem_of_head? (link.symm.trans (update_self ..))
    exact ((linked'.keyed hp x).mp held).2.2.symm.trans home
  · intro nc other valid' same
    have plain : s.given nce.val ≠ 0 := same ▸ (capable nc valid').1
    obtain ⟨blocks, -, cap⟩ := valued_plain (x := x) dp name plain
    have block' := blocks nc other
    have valid'' : (s.valued x dp name nce.val).isvalid nc = true := by
      rwa [Cache.isvalid, block']
    have equal : ((s.valued x dp name nce.val).block nc).val.cap =
        ((s.valued x dp name nce.val).block x).val.cap := by
      rw [block', same, cap]
    exact other ((capable' nc valid'').2 x valid equal)

/-! ## Other calls -/

theorem WellFormed.pnccLookup (wellFormed : WellFormed mount s) (dp : Inode) (name : Component)
    (nce : Ncentry) : WellFormed mount (s.pnccLookup mount dp name nce).1 := by
  unfold Cache.pnccLookup
  split
  next => exact wellFormed
  next =>
  split
  next => exact wellFormed
  next =>
  simp only
  split
  next => exact wellFormed
  next nc _ =>
    obtain ⟨⟨l, lists, linked, all⟩, capable⟩ := wellFormed
    obtain ⟨pre, post, rfl⟩ := List.append_of_mem (all nc)
    refine ⟨⟨_, lists, linked.touch, fun b => ?_⟩, capable⟩
    have listed := all b
    simp only [List.mem_append, List.mem_cons] at listed ⊢
    grind -ring -linarith

/-- The key of a block. -/
def Cache.Named (s : Cache size) (dp : Inode) (name : Component) (nc : Fin size) : Prop :=
  (s.block nc).pinum = dp.number ∧ (s.block nc).pdev = dp.mdev ∧ (s.block nc).name = name.chars

instance (dp : Inode) (name : Component) (nc : Fin size) : Decidable (s.Named dp name nc) :=
  inferInstanceAs (Decidable ((s.block nc).pinum = dp.number ∧ (s.block nc).pdev = dp.mdev ∧
    (s.block nc).name = name.chars))

/-- A search goes through the chain to its end. -/
theorem Linked.search (linked : Linked mount s l lists) {h : Fin NC_NBUCKETS}
    {front behind : List (Fin size)} (bucket : lists h = front ++ behind) (dp : Inode)
    (name : Component) {fuel : Nat} (enough : behind.length ≤ fuel) :
    s.search dp name fuel behind.head? = behind.find? fun nc => decide (s.Named dp name nc) := by
  induction behind generalizing front fuel with
  | nil =>
      cases fuel with
      | zero => rfl
      | succ fuel => rfl
  | cons nc behind ih =>
      cases fuel with
      | zero => exact absurd enough (Nat.not_succ_le_zero _)
      | succ fuel =>
          have rest := ih (show lists h = (front ++ [nc]) ++ behind by rwa [List.append_assoc])
            (Nat.le_of_succ_le_succ enough)
          rw [List.head?_cons, Cache.search, linked.hung.next bucket, rest]
          by_cases named : s.Named dp name nc
          · rw [List.find?_cons, decide_eq_true named]
            exact if_pos named
          · rw [List.find?_cons, decide_eq_false named]
            exact if_neg named

/-- A lookup finds a name exactly where a block has it. -/
theorem pnccLookup_hit_iff (wellFormed : WellFormed mount s) {dp : Inode} {name : Component}
    (nce : Ncentry) (short : name.len ≤ NC_NAMLEN) :
    (s.pnccLookup mount dp name nce).2.1 = .hit ↔ ∃ nc, s.Named dp name nc := by
  obtain ⟨⟨l, lists, linked, all⟩, -⟩ := wellFormed
  have enough : ∀ h, (lists h).length ≤ size := fun h => by
    simpa using (linked.hung.hangs h).nodup.length_le_card
  have found := linked.search (List.nil_append _).symm dp name
    (enough (ncBucket mount dp.mdev dp.number name.chars))
  rw [← (linked.hung.hangs _).head] at found
  unfold Cache.pnccLookup
  rw [if_neg (Nat.not_lt.mpr short)]
  split
  next off =>
    subst off
    refine ⟨fun hit => (by cases hit), fun found => ?_⟩
    obtain ⟨nc, -⟩ := found
    exact nc.elim0
  next =>
    simp only [found]
    split
    next none =>
      refine ⟨fun hit => (by cases hit), fun found => ?_⟩
      obtain ⟨nc, named⟩ := found
      have valid : s.isvalid nc = true := by
        simp only [Cache.isvalid, named.2.2, Bool.not_eq_true', List.isEmpty_eq_false_iff]
        exact name.some
      have home : s.home mount nc = ncBucket mount dp.mdev dp.number name.chars := by
        rw [Cache.home, named.1, named.2.1, named.2.2]
      have listed := (linked.keyed _ nc).mpr ⟨all nc, valid, home⟩
      have unlike := List.find?_eq_none.mp none nc listed
      exact absurd (decide_eq_true named) unlike
    next nc some =>
      have holds : decide (s.Named dp name nc) = true :=
        List.find?_some (p := fun nc => decide (s.Named dp name nc)) some
      have named := of_decide_eq_true holds
      exact ⟨fun _ => ⟨nc, named⟩, fun _ => rfl⟩

theorem WellFormed.purged (wellFormed : WellFormed mount s)
    (purged : ∀ l lists, Linked mount s l lists → Purged mount s s' l) : WellFormed mount s' := by
  obtain ⟨⟨l, lists, linked, all⟩, capable⟩ := wellFormed
  obtain ⟨⟨l', lists', linked', same⟩, thinned⟩ := purged l lists linked
  exact ⟨⟨l', lists', linked', fun b => (same b).mpr (all b)⟩, capable.thinned thinned.valid⟩

theorem WellFormed.pnccNewcap (wellFormed : WellFormed mount s) :
    WellFormed mount s.pnccNewcap.1 := by
  have counted : WellFormed mount { s with capgen := s.capgen + 1 } := by
    obtain ⟨⟨l, lists, linked, all⟩, capable⟩ := wellFormed
    exact ⟨⟨l, lists, ⟨linked.lru, linked.hung, linked.keyed⟩, all⟩, capable⟩
  by_cases wrapped : s.capgen + 1 = 0
  · rw [pnccNewcap_wrapped wrapped]
    obtain ⟨⟨l, lists, linked, all⟩, capable⟩ :=
      counted.purged fun l lists linked => (linked.pnccPurgedev NODEV).1
    exact ⟨⟨l, lists, ⟨linked.lru, linked.hung, linked.keyed⟩, all⟩, capable⟩
  · rw [pnccNewcap_plain wrapped]
    exact counted

/-- Blocks without names are linked in front one after the other. -/
theorem Linked.foldl {new : List (Fin size)} (linked : Linked mount s l lists)
    (distinct : (new.reverse ++ l).Nodup) (invalid : ∀ nc, s.isvalid nc = false) :
    Linked mount (new.foldl (fun s nc => s.insLru nc none) s) (new.reverse ++ l) lists ∧
      (new.foldl (fun s nc => s.insLru nc none) s).block = s.block := by
  induction new generalizing s l with
  | nil => exact ⟨linked, rfl⟩
  | cons x new ih =>
      rw [List.reverse_cons, List.append_assoc] at distinct ⊢
      have out : x ∉ l := (List.nodup_cons.mp (List.nodup_append.mp distinct).2.1).1
      exact ih (linked.putInvalid out (invalid x)) distinct invalid

theorem pnccInit_linked (size : Nat) :
    Linked mount (Cache.pnccInit size) ((List.finRange size).reverse ++ []) (fun _ => []) ∧
      ∀ nc, (Cache.pnccInit size).isvalid nc = false := by
  have blank : Linked mount
      (⟨fun _ => ⟨0, 0, [], 0, 0, 0, 0⟩, ⟨fun _ => none, fun _ => none⟩,
        ⟨none, none, fun _ => none, fun _ => none⟩, 0⟩ : Cache size) [] fun _ => [] := by
    refine ⟨Chain.empty _ _, ⟨fun _ => rfl, fun _ _ _ listed => nomatch listed⟩, fun h nc => ?_⟩
    simp only [List.not_mem_nil, false_and]
  have distinct : ((List.finRange size).reverse ++ []).Nodup := by
    rw [List.append_nil, List.nodup_reverse]
    exact List.nodup_finRange size
  obtain ⟨linked, block⟩ := blank.foldl distinct fun _ => rfl
  refine ⟨linked, fun nc => ?_⟩
  rw [Cache.isvalid, Cache.pnccInit, block]
  rfl

theorem pnccInit_invalid (nc : Fin size) : (Cache.pnccInit size).isvalid nc = false :=
  (@pnccInit_linked (fun _ => 0) size).2 nc

/-- In a new cache all the blocks are linked and none has a name. -/
theorem pnccInit_wellFormed (size : Nat) : WellFormed mount (Cache.pnccInit size) := by
  refine ⟨⟨_, _, (pnccInit_linked size).1, fun nc => ?_⟩, fun nc valid => ?_⟩
  · rw [List.append_nil, List.mem_reverse]
    exact List.mem_finRange nc
  · cases (pnccInit_invalid nc).symm.trans valid

/-- The calls of the users of the cache. -/
inductive Call where
  | lookup (dp : Inode) (name : Component) (nce : Ncentry)
  | enter (dp : Inode) (name : Component) (nce : Ncentry)
  | remove (nce : Ncentry)
  | purgedev (dev : Dev)
  | newcap

def Cache.call (mount : Dev → Int) (s : Cache size) : Call → Cache size
  | .lookup dp name nce => (s.pnccLookup mount dp name nce).1
  | .enter dp name nce => (s.pnccEnter dp name nce).1
  | .remove nce => s.pnccRemove nce
  | .purgedev dev => s.pnccPurgedev dev
  | .newcap => s.pnccNewcap.1

/-- An entry has to fit; the other calls may be any. -/
def Fits (mount : Dev → Int) (s : Cache size) : Call → Prop
  | .enter dp name nce => Fitting mount s dp name nce
  | _ => True

theorem WellFormed.call (s : Cache size) (c : Call) (wellFormed : WellFormed mount s)
    (fits : Fits mount s c) : WellFormed mount (s.call mount c) := by
  cases c with
  | lookup dp name nce => exact wellFormed.pnccLookup dp name nce
  | enter dp name nce => exact wellFormed.pnccEnter fits
  | remove nce => exact wellFormed.purged fun l lists linked => linked.pnccRemove nce
  | purgedev dev => exact wellFormed.purged fun l lists linked => (linked.pnccPurgedev dev).1
  | newcap => exact wellFormed.pnccNewcap

theorem not_wellFormed_call (s : Cache size) (c : Call) (wellFormed : WellFormed mount s)
    (unfit : ¬ Fits mount s c) : ¬ WellFormed mount (s.call mount c) := by
  cases c with
  | enter dp name nce => exact not_wellFormed_enter wellFormed unfit
  | lookup dp name nce => exact absurd trivial unfit
  | remove nce => exact absurd trivial unfit
  | purgedev dev => exact absurd trivial unfit
  | newcap => exact absurd trivial unfit

/-! ## The generator -/

/-- The generator has come to the capabilities of all the valid blocks. -/
def Generated (s : Cache size) : Prop :=
  ∀ nc, s.isvalid nc = true → (s.block nc).val.cap ≤ s.capgen

/-- A generator that has gone up is past the blocks that are left. -/
theorem Generated.grown (generated : Generated s) (kept : ∀ b, s'.isvalid b = true →
    s.isvalid b = true ∧ s'.block b = s.block b) (grown : s.capgen ≤ s'.capgen) :
    Generated s' := by
  intro nc valid
  obtain ⟨valid', block⟩ := kept nc valid
  rw [block]
  exact BitVec.le_trans (generated nc valid') grown

theorem Generated.purged (generated : Generated s) (wellFormed : WellFormed mount s)
    (purged : ∀ l lists, Linked mount s l lists → Purged mount s s' l) : Generated s' := by
  obtain ⟨⟨l, lists, linked, -⟩, -⟩ := wellFormed
  have thinned := (purged l lists linked).2
  refine generated.grown thinned.valid ?_
  rw [thinned.capgen]
  exact BitVec.le_refl _

theorem Generated.pnccLookup (generated : Generated s) (dp : Inode) (name : Component)
    (nce : Ncentry) : Generated (s.pnccLookup mount dp name nce).1 := by
  unfold Cache.pnccLookup
  split
  next => exact generated
  next =>
  split
  next => exact generated
  next =>
  simp only
  split
  next => exact generated
  next => exact generated

theorem Generated.pnccNewcap (generated : Generated s) (wellFormed : WellFormed mount s) :
    Generated s.pnccNewcap.1 := by
  by_cases wrapped : s.capgen + 1 = 0
  · obtain ⟨⟨l, lists, linked, all⟩, -⟩ := wellFormed
    have counted : Linked mount { s with capgen := s.capgen + 1 } l lists :=
      ⟨linked.lru, linked.hung, linked.keyed⟩
    have gone := (counted.pnccPurgedev NODEV).2 rfl
    rw [pnccNewcap_wrapped wrapped]
    intro nc valid
    cases (gone nc (all nc)).symm.trans valid
  · rw [pnccNewcap_plain wrapped]
    exact generated.grown (fun _ valid => ⟨valid, rfl⟩) (le_next wrapped)

/-- A capability that comes into the cache with an entry is one that the generator has
    come to, since it last started again. -/
def Known (s : Cache size) (name : Component) (nce : Ncentry) : Prop :=
  nce.hash.isSome → s.lru.first.isSome → name.len ≤ NC_NAMLEN → nce.val.cap ≤ s.capgen

/-- What is asked of an entry that reaches the cache: that its bucket is the one of the
    name, and that a capability handed in is no valid block's, but for the block that is
    used for it. -/
def Proper (mount : Dev → Int) (s : Cache size) (dp : Inode) (name : Component) (nce : Ncentry) :
    Prop :=
  ∀ hp ∈ nce.hash, ∀ x ∈ s.lru.first, name.len ≤ NC_NAMLEN →
    hp = ncBucket mount dp.mdev dp.number name.chars ∧
      (nce.val.cap ≠ 0 → ∀ nc ≠ x, s.isvalid nc = true → (s.block nc).val.cap ≠ nce.val.cap)

/-- The other calls may be any. -/
def Comes (s : Cache size) : Call → Prop
  | .enter _ name nce => Known s name nce
  | _ => True

def Meets (mount : Dev → Int) (s : Cache size) : Call → Prop
  | .enter dp name nce => Proper mount s dp name nce
  | _ => True

instance (s : Cache size) (c : Call) : Decidable (Comes s c) := by
  unfold Comes Known
  cases c <;> infer_instance

instance (mount : Dev → Int) (s : Cache size) (c : Call) : Decidable (Meets mount s c) := by
  unfold Meets Proper
  cases c <;> infer_instance

/-- The capability that the generator comes to next is no valid block's. -/
theorem Generated.next (generated : Generated s) (capable : Capable s)
    (valid : s.isvalid nc = true) : (s.block nc).val.cap ≠ s.capgen + 1 := by
  intro same
  have known := generated nc valid
  have nonzero := (capable nc valid).1
  rw [same] at known nonzero
  bv_omega

/-- Only a capability that is handed in can be another block's. -/
theorem Generated.fitting_iff {dp : Inode} {name : Component} {nce : Ncentry}
    (generated : Generated s) (capable : Capable s) :
    Fitting mount s dp name nce ↔ Proper mount s dp name nce := by
  unfold Fitting Proper Cache.given
  refine forall₅_congr fun hp _ x _ _ => and_congr_right fun _ => ?_
  by_cases zero : nce.val.cap = 0
  · rw [if_pos zero]
    exact iff_of_true (fun nc _ valid => generated.next capable valid)
      (fun handed => absurd zero handed)
  · rw [if_neg zero]
    exact ⟨fun unlike _ => unlike, fun unlike => unlike zero⟩

theorem Generated.pnccEnter {dp : Inode} {name : Component} {nce : Ncentry}
    (generated : Generated s) (wellFormed : WellFormed mount s) (known : Known s name nce) :
    Generated (s.pnccEnter dp name nce).1 := by
  cases hash : nce.hash with
  | none =>
      simp only [Cache.pnccEnter, hash]
      exact generated
  | some hp =>
  cases first : s.lru.first with
  | none =>
      simp only [Cache.pnccEnter, hash, first]
      exact generated
  | some x =>
  by_cases short : name.len ≤ NC_NAMLEN
  · have handed : nce.val.cap ≤ s.capgen := known (hash ▸ rfl) (first ▸ rfl) short
    obtain ⟨⟨l, lists, linked, all⟩, -⟩ := wellFormed
    obtain ⟨post, rfl⟩ : ∃ post, l = x :: post := by
      rw [linked.first, List.head?_eq_some_iff] at first
      exact first
    obtain ⟨-, kept, val', block, -, reached, capable⟩ := linked.valued dp name nce.val
    rw [pnccEnter_eq hash first short]
    generalize s.valued x dp name nce.val = s' at *
    intro nc valid
    change s'.isvalid nc = true at valid
    change (s'.block nc).val.cap ≤ s'.capgen
    by_cases new : nc = x
    · subst new
      rw [block]
      exact reached handed
    · obtain ⟨old, same⟩ := kept nc new valid
      rcases capable with ⟨-, grown⟩ | gone
      · rw [same]
        exact BitVec.le_trans (generated nc old) grown
      · have behind := (List.mem_cons.mp (all nc)).resolve_left new
        cases (gone nc behind).symm.trans valid
  · simp only [Cache.pnccEnter, hash, first, if_pos (Nat.lt_of_not_le short)]
    exact generated

theorem Generated.call (s : Cache size) (c : Call) (generated : Generated s)
    (wellFormed : WellFormed mount s) (comes : Comes s c) : Generated (s.call mount c) := by
  cases c with
  | lookup dp name nce => exact generated.pnccLookup dp name nce
  | enter dp name nce => exact generated.pnccEnter wellFormed comes
  | remove nce => exact generated.purged wellFormed fun l lists linked => linked.pnccRemove nce
  | purgedev dev =>
      exact generated.purged wellFormed fun l lists linked => (linked.pnccPurgedev dev).1
  | newcap => exact generated.pnccNewcap wellFormed

theorem Generated.fits_iff {c : Call} (generated : Generated s) (capable : Capable s) :
    Fits mount s c ↔ Meets mount s c := by
  cases c with
  | enter dp name nce => exact generated.fitting_iff capable
  | lookup dp name nce => exact Iff.rfl
  | remove nce => exact Iff.rfl
  | purgedev dev => exact Iff.rfl
  | newcap => exact Iff.rfl

/-- The steps that fit are those that are proper, as long as the generator has come to all
    capabilities of the cache. -/
theorem along_fits_iff {calls : List Call} (wellFormed : WellFormed mount s)
    (generated : Generated s) (comes : Run.Along (Cache.call mount) Comes s calls) :
    Run.Along (Cache.call mount) (Fits mount) s calls ↔
      Run.Along (Cache.call mount) (Meets mount) s calls := by
  induction calls generalizing s with
  | nil => exact Iff.rfl
  | cons c calls ih =>
      rw [Run.Along, Run.Along, ← generated.fits_iff wellFormed.capable]
      exact and_congr_right fun fits =>
        ih (wellFormed.call s c fits) (generated.call s c wellFormed comes.1) comes.2

end

/-- Where the generator has come to every capability that is handed in, the cache stays well
    formed in the runs whose entries are proper, and in no other: what the generator itself
    gives is no valid block's, also where it starts again in the middle of an entry. -/
theorem wellFormed_iff (mount : Dev → Int) (size : Nat) (calls : List Call)
    (comes : Run.Along (Cache.call mount) Comes (Cache.pnccInit size) calls) :
    (∀ before after, calls = before ++ after →
        WellFormed mount (Run.exec (Cache.call mount) (Cache.pnccInit size) before)) ↔
      Run.Along (Cache.call mount) (Meets mount) (Cache.pnccInit size) calls := by
  have generated : Generated (Cache.pnccInit size) := fun nc valid => by
    cases (pnccInit_invalid nc).symm.trans valid
  rw [← along_fits_iff (pnccInit_wellFormed size) generated comes]
  exact Run.along_iff WellFormed.call (fun _ wellFormed => wellFormed) not_wellFormed_call
    (pnccInit_wellFormed size) calls

/-- A directory and a file in it, with capabilities from the generator, and a name of the
    directory, entered with it and without. -/
def usedAgain : List Call :=
  let dp : Inode := ⟨1, 5⟩
  let a : Component := ⟨[97], by decide, by decide⟩
  let b : Component := ⟨[98], by decide, by decide⟩
  let entry (name : Component) (cap : Ncap) : Ncentry :=
    ⟨⟨7, 0, 1, cap⟩, some (ncBucket (fun _ => 0) dp.mdev dp.number name.chars)⟩
  [.newcap, .newcap, .lookup dp a (entry a 0), .enter dp a (entry a 2), .enter dp b (entry b 0),
    .enter dp b (entry b 1), .lookup dp b (entry b 0), .enter dp a (entry a 0), .remove (entry b 1)]

theorem wellFormed_iff_usedAgain :
    Run.Along (Cache.call fun _ => 0) (Meets fun _ => 0) (Cache.pnccInit 2) usedAgain ∧
      ∀ before after, usedAgain = before ++ after → WellFormed (fun _ => 0)
        (Run.exec (Cache.call fun _ => 0) (Cache.pnccInit 2) before) :=
  have meets : Run.Along (Cache.call fun _ => 0) (Meets fun _ => 0) (Cache.pnccInit 2) usedAgain := by
    decide
  ⟨meets, (wellFormed_iff (fun _ => 0) 2 usedAgain (by decide)).mpr meets⟩

/-- Two names of one file in a directory, entered with the capability that the file
    has got from the generator. -/
def linkedTwice : List Call :=
  let dp : Inode := ⟨1, 5⟩
  let a : Component := ⟨[97], by decide, by decide⟩
  let b : Component := ⟨[98], by decide, by decide⟩
  let entry (name : Component) : Ncentry :=
    ⟨⟨7, 0, 1, 2⟩, some (ncBucket (fun _ => 0) dp.mdev dp.number name.chars)⟩
  [.newcap, .newcap, .lookup dp a (entry a), .enter dp a (entry a), .lookup dp b (entry b),
    .enter dp b (entry b)]

theorem linkedTwice_not_wellFormed : ¬ WellFormed (fun _ => 0)
    (Run.exec (Cache.call fun _ => 0) (Cache.pnccInit 2) linkedTwice) := by
  intro wellFormed
  have single := (wellFormed.capable 0 (by decide)).2 1 (by decide) (by decide)
  exact absurd single (by decide)

end Irix.Pncc
