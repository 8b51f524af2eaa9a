import Irix.Lib.Run
import Irix.Pncc.Cache

/-! # Both lists of the name cache

While a block is filled it is on neither list, and the cache may be purged
meanwhile.  `Linked` is about the blocks that are on the list of all blocks.
-/

namespace Irix.Pncc

open Function Lib.Linked Lib.Buckets

section

variable (mount : Dev → Int) {size : Nat}

/-- The bucket that the key of a block hashes to. -/
def Cache.home (s : Cache size) (nc : Fin size) : Fin NC_NBUCKETS :=
  ncBucket mount (s.block nc).pdev (s.block nc).pinum (s.block nc).name

/-- The blocks of `l` are linked, and those of them with names hang from their
    buckets. -/
structure Linked (s : Cache size) (l : List (Fin size))
    (lists : Fin NC_NBUCKETS → List (Fin size)) : Prop where
  lru : Chain s.lru l
  hung : Hung s.hash lists
  keyed : ∀ h nc, nc ∈ lists h ↔ nc ∈ l ∧ s.isvalid nc = true ∧ s.home mount nc = h

/-- The capabilities of the valid blocks are one of a kind. -/
def Capable (s : Cache size) : Prop :=
  ∀ nc, s.isvalid nc = true → (s.block nc).val.cap ≠ 0 ∧
    ∀ nc', s.isvalid nc' = true → (s.block nc).val.cap = (s.block nc').val.cap → nc = nc'

/-- Every block is on the list of all blocks once, those that have names hang from
    the buckets of their keys, and their capabilities are one of a kind. -/
structure WellFormed (s : Cache size) : Prop where
  linked : ∃ l lists, Linked mount s l lists ∧ ∀ nc, nc ∈ l
  capable : Capable s

end

variable {mount : Dev → Int} {size : Nat} {s s' : Cache size} {l l' pre post : List (Fin size)}
  {lists : Fin NC_NBUCKETS → List (Fin size)} {x nc : Fin size}

/-! ## Changes to one block -/

theorem Linked.fresh (linked : Linked mount s l lists) (out : x ∉ l) (h : Fin NC_NBUCKETS) :
    x ∉ lists h := fun listed => out ((linked.keyed h x).mp listed).1

/-- The blocks are put into another order. -/
theorem Linked.reorder (linked : Linked mount s l lists) {lru : Dlist (Fin size)}
    (chain : Chain lru l') (same : ∀ b, b ∈ l' ↔ b ∈ l) :
    Linked mount { s with lru := lru } l' lists where
  lru := chain
  hung := linked.hung
  keyed h b := (linked.keyed h b).trans (and_congr_left' (same b).symm)

theorem isvalid_update {block : Ncblock} {b : Fin size} :
    { s with block := update s.block x block : Cache size }.isvalid b =
      if b = x then !block.name.isEmpty else s.isvalid b := by
  split
  next same => simp only [same, Cache.isvalid, update_self]
  next other => simp only [Cache.isvalid, update_of_ne other]

/-- A block that is on neither list is written to. -/
theorem Linked.write (linked : Linked mount s l lists) (out : x ∉ l) (block : Ncblock) :
    Linked mount { s with block := update s.block x block } l lists where
  lru := linked.lru
  hung := linked.hung
  keyed h b := by
    rw [linked.keyed]
    refine and_congr_right fun listed => ?_
    have other : b ≠ x := ne_of_mem_of_not_mem listed out
    simp only [isvalid_update, if_neg other, Cache.home, update_of_ne other]

/-- A block without a name is taken from the list of all blocks. -/
theorem Linked.takeInvalid (linked : Linked mount s (pre ++ x :: post) lists)
    (invalid : s.isvalid x = false) : Linked mount (s.remLru x) (pre ++ post) lists where
  lru := linked.lru.remove
  hung := linked.hung
  keyed h b := by
    rw [linked.keyed, List.mem_append, List.mem_append, List.mem_cons]
    constructor
    · rintro ⟨listed, valid, home⟩
      have other : b ≠ x := by
        rintro rfl
        cases invalid.symm.trans valid
      exact ⟨by tauto, valid, home⟩
    · rintro ⟨listed, valid, home⟩
      exact ⟨by tauto, valid, home⟩

/-- A block with a name is taken from both lists. -/
theorem Linked.takeValid (linked : Linked mount s (pre ++ x :: post) lists)
    {h : Fin NC_NBUCKETS} {front behind : List (Fin size)} (listed : lists h = front ++ x :: behind) :
    Linked mount ((s.remLru x).remHash x) (pre ++ post) (update lists h (front ++ behind)) where
  lru := linked.lru.remove
  hung := linked.hung.remove listed
  keyed h' b := by
    have out := linked.lru.not_mem
    have nodup := (linked.hung.hangs h).nodup
    rw [listed] at nodup
    have out' : x ∉ front ++ behind := by
      have perm : (front ++ x :: behind).Perm (x :: (front ++ behind)) := List.perm_middle
      exact (List.nodup_cons.mp (perm.nodup_iff.mp nodup)).1
    have kept : b ∈ update lists h (front ++ behind) h' ↔ b ∈ lists h' ∧ b ≠ x := by
      by_cases same : h' = h
      · subst same
        rw [update_self, listed, List.mem_append, List.mem_append, List.mem_cons]
        constructor
        · intro listed'
          exact ⟨by tauto, ne_of_mem_of_not_mem (List.mem_append.mpr listed') out'⟩
        · rintro ⟨listed', other⟩
          tauto
      · rw [update_of_ne same]
        refine ⟨fun listed' => ⟨listed', ?_⟩, And.left⟩
        rintro rfl
        have here : b ∈ lists h := by
          rw [listed]
          exact List.mem_append_right _ (List.mem_cons_self ..)
        exact same (linked.hung.apart _ _ b listed' here)
    rw [kept, linked.keyed]
    have member : b ∈ pre ++ post ↔ b ∈ pre ++ x :: post ∧ b ≠ x := by
      rw [List.mem_append, List.mem_append, List.mem_cons]
      constructor
      · intro listed'
        exact ⟨by tauto, ne_of_mem_of_not_mem (List.mem_append.mpr listed') out⟩
      · rintro ⟨listed', other⟩
        tauto
    rw [member]
    tauto

theorem Linked.first (linked : Linked mount s l lists) : s.lru.first = l.head? := linked.lru.first

/-- A block is linked in front, without a name. -/
theorem Linked.putInvalid (linked : Linked mount s l lists) (out : x ∉ l)
    (invalid : s.isvalid x = false) : Linked mount (s.insLru x none) (x :: l) lists where
  lru := by
    have chain : Chain s.lru ([] ++ l) := linked.lru
    have linked' := chain.insert (x := x) out
    rwa [← linked.first] at linked'
  hung := linked.hung
  keyed h b := by
    rw [linked.keyed, List.mem_cons]
    constructor
    · rintro ⟨listed, valid⟩
      exact ⟨.inr listed, valid⟩
    · rintro ⟨rfl | listed, valid, home⟩
      · cases invalid.symm.trans valid
      · exact ⟨listed, valid, home⟩

/-- The link forward from the last block is null. -/
theorem lruforw_last (chain : Chain s.lru l) : s.lruforw s.lru.last = none := by
  have last := chain.last
  rcases List.eq_nil_or_concat l with rfl | ⟨front, z, rfl⟩
  · rw [last]
    exact chain.first
  · rw [List.concat_eq_append] at last chain
    rw [last, List.getLast?_append_of_ne_nil _ (List.cons_ne_nil z []), List.getLast?_singleton]
    exact chain.next_of

/-- A block is linked behind the others. -/
theorem insLru_last (chain : Chain s.lru l) (out : x ∉ l) :
    Chain (s.insLru x s.lru.last).lru (l ++ [x]) := by
  have chain' : Chain s.lru (l ++ []) := by rwa [List.append_nil]
  have linked := chain'.insert (x := x) (by rwa [List.append_nil])
  rwa [← chain.last, List.head?_nil, ← lruforw_last chain] at linked

/-- A block with a name is hung from its bucket and linked behind the others. -/
theorem Linked.putValid (linked : Linked mount s l lists) (out : x ∉ l)
    (valid : s.isvalid x = true) :
    Linked mount ((s.insHash x (s.home mount x)).insLru x s.lru.last) (l ++ [x])
      (update lists (s.home mount x) (x :: lists (s.home mount x))) where
  lru := insLru_last linked.lru out
  hung := linked.hung.insert (linked.fresh out)
  keyed h b := by
    have kept : b ∈ update lists (s.home mount x) (x :: lists (s.home mount x)) h ↔
        b ∈ lists h ∨ b = x ∧ s.home mount x = h := by
      by_cases same : h = s.home mount x
      · subst same
        rw [update_self, List.mem_cons]
        tauto
      · rw [update_of_ne same]
        exact ⟨.inl, fun listed => listed.resolve_right fun here => same here.2.symm⟩
    rw [kept, linked.keyed, List.mem_append, List.mem_singleton]
    constructor
    · rintro (⟨listed, known⟩ | ⟨rfl, home⟩)
      · exact ⟨.inl listed, known⟩
      · exact ⟨.inr rfl, valid, home⟩
    · rintro ⟨listed | rfl, known⟩
      · exact .inl ⟨listed, known⟩
      · exact .inr ⟨rfl, known.2⟩

/-- A hit makes a block the one most recently used. -/
theorem Linked.touch (linked : Linked mount s (pre ++ x :: post) lists) :
    Linked mount ((s.remLru x).insLru x (s.remLru x).lru.last) (pre ++ post ++ [x]) lists := by
  have taken : Chain (s.remLru x).lru (pre ++ post) := linked.lru.remove
  refine linked.reorder (insLru_last taken linked.lru.not_mem) fun b => ?_
  simp only [List.mem_append, List.mem_cons, List.not_mem_nil, or_false]
  tauto

/-! ## Removal -/

/-- `REMOVE` of a block that hangs in a bucket. -/
theorem Linked.remove (linked : Linked mount s (pre ++ x :: post) lists)
    {h : Fin NC_NBUCKETS} {front behind : List (Fin size)}
    (listed : lists h = front ++ x :: behind) :
    Linked mount (s.remove x) (x :: (pre ++ post)) (update lists h (front ++ behind)) := by
  have out := linked.lru.not_mem
  have taken := (linked.takeValid listed).write out { s.block x with name := [] }
  refine taken.putInvalid out ?_
  rw [isvalid_update, if_pos rfl]
  rfl

/-- Some of the blocks of a list have lost their names. -/
structure Thinned (s s' : Cache size) (l : List (Fin size)) : Prop where
  others : ∀ nc ∉ l, s'.block nc = s.block nc
  valid : ∀ nc, s'.isvalid nc = true → s.isvalid nc = true ∧ s'.block nc = s.block nc
  capgen : s'.capgen = s.capgen

theorem Thinned.invalid (thinned : Thinned s s' l) (invalid : s.isvalid nc = false) :
    s'.isvalid nc = false := by
  by_contra valid
  have valid' := (thinned.valid nc (by simpa using valid)).1
  cases invalid.symm.trans valid'

theorem Thinned.refl (s : Cache size) (l : List (Fin size)) : Thinned s s l :=
  ⟨fun _ _ => rfl, fun _ valid => ⟨valid, rfl⟩, rfl⟩

theorem Thinned.trans {s'' : Cache size} (first : Thinned s s' l) (second : Thinned s' s'' l')
    (same : ∀ b, b ∈ l' ↔ b ∈ l) : Thinned s s'' l where
  others nc out := (second.others nc fun listed => out ((same nc).mp listed)).trans
    (first.others nc out)
  valid nc valid := by
    obtain ⟨valid', same'⟩ := second.valid nc valid
    obtain ⟨valid'', same''⟩ := first.valid nc valid'
    exact ⟨valid'', same'.trans same''⟩
  capgen := second.capgen.trans first.capgen

theorem isvalid_remove (s : Cache size) (x : Fin size) : (s.remove x).isvalid x = false := by
  simp only [Cache.remove, Cache.invalidate, Cache.isvalid, update_self]
  rfl

theorem thinned_remove (listed : x ∈ l) : Thinned s (s.remove x) l where
  others nc out := update_of_ne (ne_of_mem_of_not_mem listed out).symm ..
  valid nc valid := by
    have other : nc ≠ x := by
      rintro rfl
      cases (isvalid_remove s nc).symm.trans valid
    rw [Cache.remove, Cache.invalidate, isvalid_update, if_neg other] at valid
    exact ⟨valid, update_of_ne other ..⟩
  capgen := rfl

/-- Blocks of a list have lost their names and their places, and are linked again. -/
def Purged (mount : Dev → Int) (s s' : Cache size) (l : List (Fin size)) : Prop :=
  (∃ l' lists, Linked mount s' l' lists ∧ ∀ b, b ∈ l' ↔ b ∈ l) ∧ Thinned s s' l

theorem Linked.purged (linked : Linked mount s l lists) : Purged mount s s l :=
  ⟨⟨l, lists, linked, fun _ => Iff.rfl⟩, .refl s l⟩

theorem Purged.trans {s'' : Cache size} (first : Thinned s s' l) (second : Purged mount s' s'' l')
    (same : ∀ b, b ∈ l' ↔ b ∈ l) : Purged mount s s'' l := by
  obtain ⟨⟨l'', lists, linked, same'⟩, thinned⟩ := second
  exact ⟨⟨l'', lists, linked, fun b => (same' b).trans (same b)⟩, first.trans thinned same⟩

/-- A block that is valid hangs in the bucket of its key. -/
theorem Linked.bucket (linked : Linked mount s l lists) (listed : x ∈ l)
    (valid : s.isvalid x = true) :
    ∃ front behind, lists (s.home mount x) = front ++ x :: behind :=
  List.append_of_mem ((linked.keyed _ x).mpr ⟨listed, valid, rfl⟩)

/-- The loop of `pncc_purgedev`. -/
theorem purgeFrom_purged (dev : Dev) (fuel : Nat) (linked : Linked mount s (pre ++ post) lists) :
    Purged mount s (Cache.purgeFrom dev fuel post.head? s) (pre ++ post) ∧
      (dev = NODEV → post.length ≤ fuel →
        ∀ b ∈ post, (Cache.purgeFrom dev fuel post.head? s).isvalid b = false) := by
  induction fuel generalizing s pre post lists with
  | zero =>
      refine ⟨linked.purged, fun _ short b listed => ?_⟩
      have empty := List.length_eq_zero_iff.mp (Nat.le_zero.mp short)
      rw [empty] at listed
      cases listed
  | succ fuel ih =>
      cases post with
      | nil => exact ⟨linked.purged, fun _ _ b listed => nomatch listed⟩
      | cons x post =>
          have next : s.lru.next x = post.head? := linked.lru.next_of
          rw [List.head?_cons, Cache.purgeFrom, next]
          split
          next purge =>
            obtain ⟨front, behind, bucket⟩ := linked.bucket (by simp) purge.2
            have removed : Linked mount (s.remove x) ((x :: pre) ++ post) _ := linked.remove bucket
            obtain ⟨purged, gone⟩ := ih removed
            have thinned : Thinned s (s.remove x) (pre ++ x :: post) := thinned_remove (by simp)
            refine ⟨Purged.trans thinned purged fun b => ?_, fun all short b listed => ?_⟩
            · simp only [List.mem_append, List.mem_cons]
              tauto
            · rcases List.mem_cons.mp listed with rfl | behind
              · exact purged.2.invalid (isvalid_remove s b)
              · exact gone all (Nat.le_of_succ_le_succ short) b behind
          next keep =>
            have linked' : Linked mount s ((pre ++ [x]) ++ post) lists := by
              rwa [List.append_assoc]
            obtain ⟨purged, gone⟩ := ih linked'
            rw [List.append_assoc] at purged
            refine ⟨purged, fun all short b listed => ?_⟩
            rcases List.mem_cons.mp listed with rfl | behind
            · refine purged.2.invalid ?_
              rw [← Bool.not_eq_true]
              exact fun valid => keep ⟨.inr all.symm, valid⟩
            · exact gone all (Nat.le_of_succ_le_succ short) b behind

theorem Linked.pnccPurgedev (linked : Linked mount s l lists) (dev : Dev) :
    Purged mount s (s.pnccPurgedev dev) l ∧
      (dev = NODEV → ∀ b ∈ l, (s.pnccPurgedev dev).isvalid b = false) := by
  have loop := purgeFrom_purged dev size (show Linked mount s ([] ++ l) lists from linked)
  rw [← linked.first] at loop
  refine ⟨loop.1, fun all => loop.2 all ?_⟩
  simpa using linked.lru.nodup.length_le_card

/-- The loop of `pncc_remove`. -/
theorem removeFrom_purged {val : Ncvalue} {fuel : Nat} {h : Fin NC_NBUCKETS}
    {front behind : List (Fin size)} (linked : Linked mount s l lists)
    (bucket : lists h = front ++ behind) :
    Purged mount s (Cache.removeFrom val fuel behind.head? s) l := by
  induction fuel generalizing s l lists front behind with
  | zero => exact linked.purged
  | succ fuel ih =>
      cases behind with
      | nil => exact linked.purged
      | cons x behind =>
          have known := (linked.keyed h x).mp (bucket ▸ by simp)
          rw [List.head?_cons, Cache.removeFrom]
          split
          next found =>
            obtain ⟨pre, post, rfl⟩ := List.append_of_mem known.1
            have removed := linked.remove bucket
            have next : (s.remove x).hash.forw (.inr x) = behind.head? :=
              linked.hung.next_remove bucket
            rw [next]
            have purged := ih removed (update_self ..)
            have thinned : Thinned s (s.remove x) (pre ++ x :: post) := thinned_remove (by simp)
            refine Purged.trans thinned purged fun b => ?_
            simp only [List.mem_append, List.mem_cons]
            tauto
          next other =>
            rw [linked.hung.next bucket]
            exact ih linked (show lists h = (front ++ [x]) ++ behind by rwa [List.append_assoc])

theorem Linked.pnccRemove (linked : Linked mount s l lists) (nce : Ncentry) :
    Purged mount s (s.pnccRemove nce) l := by
  unfold Cache.pnccRemove
  split
  next => exact linked.purged
  next hp _ =>
    have head : s.hash.forw (.inl hp) = (lists hp).head? := (linked.hung.hangs hp).head
    rw [head]
    exact removeFrom_purged linked (List.nil_append _).symm

end Irix.Pncc
