import Irix.Malloc.Alloc

/-! # The search of the heap

The search goes from its start to the limit, and then from the low-watermark up to where
it started.  It ends, and it has seen every free fragment, unless it started at the limit
itself.
-/

namespace Irix.Malloc

open Memory

/-! ## Well-formed heaps -/

/-- The fragments are linked to each other both ways. -/
def Linked (m : Memory) (minsize : Nat) : List Nat → Prop
  | p :: q :: rest =>
      m.nextfrag p = q ∧ m.prevfrag q = p ∧ p + sizeofFragment ≤ q ∧
        (m.flags p = GUARD ∨ p + minsize ≤ q) ∧ Linked m minsize (q :: rest)
  | _ => True

/-- The chain of the heap. -/
structure Arena (m : Memory) (hp : Heap) (frags : List Nat) : Prop where
  linked : Linked m hp.minsize frags
  first : frags.head? = some hp.base
  last : frags.getLast? = some hp.limit
  some : 0 < hp.base ∧ hp.base < hp.limit
  top : hp.limit + sizeofFragment ≤ 4294967296
  closed : m.nextfrag hp.limit = hp.base ∧ m.prevfrag hp.base = hp.limit
  guard : m.flags hp.limit = GUARD
  flags : ∀ p ∈ frags, p % 4 = 0 ∧ m.flags p ≤ GUARD

/-- What holds of a heap between calls. -/
structure WellFormed (m : Memory) (hp : Heap) (frags : List Nat) : Prop extends Arena m hp frags where
  rover : hp.rover ∈ frags
  lowfree : hp.lowfree ∈ frags
  low : ∀ p ∈ frags, p < hp.lowfree → m.isfree p = false

/-- The free fragment has `nbytes` and one header between it and its successor. -/
def Fits (m : Memory) (nbytes p : Nat) : Prop :=
  m.isfree p = true ∧ p + (nbytes + sizeofFragment) ≤ m.nextfrag p

section Chain

variable {m : Memory} {minsize nbytes : Nat} {hp : Heap} {frags post : List Nat} {p q : Nat}

theorem Linked.lt (linked : Linked m minsize (p :: post)) : ∀ q ∈ post, p < q := by
  induction post generalizing p with
  | nil => simp
  | cons r post ih =>
      obtain ⟨-, -, less, -, rest⟩ := linked
      intro q listed
      have next : p < r := Nat.lt_of_lt_of_le (Nat.lt_add_of_pos_right (by decide)) less
      rcases List.mem_cons.mp listed with rfl | later
      · exact next
      · exact Nat.lt_trans next (ih rest q later)

theorem Linked.tail (linked : Linked m minsize (p :: post)) : Linked m minsize post := by
  cases post with
  | nil => trivial
  | cons q post => exact linked.2.2.2.2

/-- The chain from a fragment on. -/
structure Rest (m : Memory) (hp : Heap) (frags : List Nat) (p : Nat) (post : List Nat) : Prop where
  linked : Linked m hp.minsize (p :: post)
  last : (p :: post).getLast? = some hp.limit
  sub : ∀ q ∈ p :: post, q ∈ frags
  later : ∀ q ∈ frags, p ≤ q → q ∈ p :: post
  length : post.length + 1 ≤ frags.length

theorem exists_rest (linked : Linked m hp.minsize frags) (last : frags.getLast? = some hp.limit)
    (listed : p ∈ frags) : ∃ post, Rest m hp frags p post := by
  induction frags with
  | nil => cases listed
  | cons r frags ih =>
      have after := linked.lt
      rcases List.mem_cons.mp listed with rfl | later
      · exact ⟨frags, linked, last, fun _ => id, fun _ listed _ => listed, Nat.le_refl _⟩
      · have last' : frags.getLast? = some hp.limit := by
          cases frags with
          | nil => cases later
          | cons q frags => simpa using last
        obtain ⟨post, rest⟩ := ih linked.tail last' later
        refine ⟨post, rest.linked, rest.last, fun q inside => List.mem_cons_of_mem _ (rest.sub q inside), ?_,
          Nat.le_succ_of_le rest.length⟩
        intro q among above
        rcases List.mem_cons.mp among with rfl | among
        · have := after p later
          omega
        · exact rest.later q among above

theorem Arena.rest (arena : Arena m hp frags) (listed : p ∈ frags) : ∃ post, Rest m hp frags p post :=
  exists_rest arena.linked arena.last listed

/-- The chain goes on behind a fragment. -/
theorem Rest.next (rest : Rest m hp frags p (q :: post)) : m.nextfrag p = q ∧ p < q ∧ Rest m hp frags q post := by
  have less := rest.linked.lt
  have after := less q (List.mem_cons_self ..)
  have last : (q :: post).getLast? = some hp.limit := by simpa using rest.last
  refine ⟨rest.linked.1, after, rest.linked.tail, last, fun r inside => rest.sub r (List.mem_cons_of_mem _ inside),
    fun r among above => ?_, Nat.le_of_succ_le rest.length⟩
  rcases List.mem_cons.mp (rest.later r among (by omega)) with rfl | later
  · omega
  · exact later

theorem Rest.eq_limit (rest : Rest m hp frags p []) : p = hp.limit := by simpa using rest.last

/-- It ends at the limit. -/
theorem Rest.cases (rest : Rest m hp frags p post) :
    p = hp.limit ∧ post = [] ∨
      p < hp.limit ∧ ∃ q tail, post = q :: tail ∧ m.nextfrag p = q ∧ p < q ∧ Rest m hp frags q tail := by
  cases post with
  | nil => exact Or.inl ⟨rest.eq_limit, rfl⟩
  | cons q tail =>
      obtain ⟨next, above, rest'⟩ := rest.next
      exact Or.inr ⟨rest.linked.lt _ (List.mem_of_getLast? (by simpa using rest.last)), q, tail, rfl, next, above, rest'⟩

theorem Arena.le_limit (arena : Arena m hp frags) (listed : p ∈ frags) : p ≤ hp.limit := by
  obtain ⟨post, rest⟩ := arena.rest listed
  rcases rest.cases with ⟨rfl, -⟩ | ⟨less, -⟩
  · exact Nat.le_refl _
  · exact Nat.le_of_lt less

theorem Arena.limit_busy (arena : Arena m hp frags) : m.isfree hp.limit = false := by
  rw [isfree, arena.guard]
  rfl

/-- What the search finds wrong with a fragment is wrong with its size. -/
theorem Arena.not_fits (arena : Arena m hp frags) (listed : p ∈ frags)
    (small : ¬ (m.isfree p = true ∧ add32 p (add32 nbytes sizeofFragment) ≤ m.nextfrag p)) : ¬ Fits m nbytes p := by
  rintro ⟨free, room⟩
  have top := arena.top
  have below : m.nextfrag p ≤ hp.limit := by
    obtain ⟨post, rest⟩ := arena.rest listed
    rcases rest.cases with ⟨rfl, -⟩ | ⟨-, q, tail, -, next, -, rest⟩
    · rw [arena.limit_busy] at free
      cases free
    · rw [next]
      exact arena.le_limit (rest.sub q (List.mem_cons_self ..))
  refine small ⟨free, ?_⟩
  have eight : sizeofFragment = 8 := rfl
  have size : add32 nbytes sizeofFragment = nbytes + sizeofFragment := Nat.mod_eq_of_lt (by omega)
  have place : add32 p (nbytes + sizeofFragment) = p + (nbytes + sizeofFragment) := Nat.mod_eq_of_lt (by omega)
  rwa [size, place]

end Chain

/-! ## The low-watermark -/

section Lowfree

variable {m : Memory} {hp : Heap} {frags post : List Nat} {fuel p : Nat}

/-- The watermark goes up to the first free fragment, or to the limit. -/
theorem heapSetlowfree_spec (arena : Arena m hp frags) (rest : Rest m hp frags p post) (enough : post.length < fuel) :
    ∃ l, heapSetlowfree m fuel p = some l ∧ l ∈ p :: post ∧ (m.isfree l = true ∨ l = hp.limit) ∧
      ∀ q ∈ p :: post, q < l → m.isfree q = false := by
  induction fuel generalizing p post with
  | zero => cases enough
  | succ fuel ih =>
      rw [heapSetlowfree]
      split
      next free =>
        refine ⟨p, rfl, List.mem_cons_self .., Or.inl free, fun q inside before => ?_⟩
        rcases List.mem_cons.mp inside with rfl | later
        · exact absurd before (Nat.lt_irrefl _)
        · exact absurd (rest.linked.lt q later) (Nat.lt_asymm before)
      next busy =>
        rw [Bool.not_eq_true] at busy
        rcases rest.cases with ⟨rfl, rfl⟩ | ⟨less, q, tail, rfl, next, above, rest'⟩
        · -- the link of the limit leads back to the base
          rw [arena.closed.1, if_pos arena.some.2]
          refine ⟨hp.limit, rfl, List.mem_cons_self .., Or.inr rfl, fun q inside before => ?_⟩
          rcases List.mem_cons.mp inside with rfl | none
          · exact busy
          · cases none
        · rw [next, if_neg (Nat.not_lt.mpr (Nat.le_of_lt above))]
          obtain ⟨l, found, inside, free, none⟩ := ih rest' (Nat.lt_of_succ_lt_succ enough)
          refine ⟨l, found, List.mem_cons_of_mem _ inside, free, fun r among before => ?_⟩
          rcases List.mem_cons.mp among with rfl | later
          · exact busy
          · exact none r later before

end Lowfree

/-! ## The two passes -/

section Passes

variable {m : Memory} {hp : Heap} {frags post : List Nat} {nbytes fuel this start stop lowfree rem : Nat}

/-- What the loop does when it has come to the end of a pass. -/
def turn (m : Memory) (nbytes fuel start stop lowfree rem : Nat) : Option Search :=
  if start < stop then do
    let this ← heapSetlowfree m fuel lowfree
    searchLoop m nbytes fuel this start start this rem
  else some (.addmem lowfree rem)

/-- A pass finds a fragment, or none up to its end fits. -/
theorem searchLoop_pass (arena : Arena m hp frags) (rest : Rest m hp frags this post) (within : stop ≤ hp.limit) :
    (∃ p r next low, searchLoop m nbytes (fuel + post.length + 1) this start stop lowfree rem =
        some (.found p r next low)) ∨
      (∀ p ∈ this :: post, p ≤ stop → ¬ Fits m nbytes p) ∧
        ∃ j ≤ post.length, ∃ rem', ((∀ p ∈ frags, m.isfree p = false) → rem' = rem) ∧
          searchLoop m nbytes (fuel + post.length + 1) this start stop lowfree rem =
            turn m nbytes (fuel + j) start stop lowfree rem' := by
  induction post generalizing this rem with
  | nil =>
      obtain rfl := rest.eq_limit
      rw [searchLoop, arena.limit_busy]
      simp only [Bool.false_eq_true, false_and, if_false, if_neg (Nat.not_lt.mpr within)]
      refine Or.inr ⟨fun p inside _ fits => ?_, 0, Nat.le_refl _, _, fun _ => rfl, rfl⟩
      rw [List.mem_singleton] at inside
      rw [inside, Fits, arena.limit_busy] at fits
      cases fits.1
  | cons q tail ih =>
      obtain ⟨next, above, rest'⟩ := rest.next
      have listed := rest.sub this (List.mem_cons_self ..)
      rw [searchLoop, next]
      generalize eq : (if m.isfree this = true then add32 this (add32 nbytes sizeofFragment) else rem) = rem'
      have same : (∀ p ∈ frags, m.isfree p = false) → rem' = rem := by
        intro none
        rw [← eq, none this listed]
        rfl
      split
      next fits => exact Or.inl ⟨_, _, _, _, rfl⟩
      next small =>
        have unfit : ¬ Fits m nbytes this := by
          refine arena.not_fits listed fun fits => small ⟨fits.1, ?_⟩
          rw [← eq, if_pos fits.1, ← next]
          exact fits.2
        split
        next more =>
          rcases @ih q rem' rest' with found | ⟨none, j, le, rem'', kept, turned⟩
          · exact Or.inl found
          · refine Or.inr ⟨fun p inside below => ?_, j, Nat.le_succ_of_le le, rem'',
              fun busy => (kept busy).trans (same busy), turned⟩
            rcases List.mem_cons.mp inside with rfl | later
            · exact unfit
            · exact none p later below
        next stopped =>
          refine Or.inr ⟨fun p inside below => ?_, _, Nat.le_refl _, _, same, rfl⟩
          rcases List.mem_cons.mp inside with rfl | later
          · exact unfit
          · have beyond := rest.linked.lt p later
            omega

/-- The search begins at the limit itself. -/
theorem searchLoop_limit (arena : Arena m hp frags) :
    searchLoop m nbytes (fuel + 1) hp.limit hp.limit hp.limit lowfree rem = some (.addmem lowfree rem) := by
  rw [searchLoop, arena.limit_busy]
  simp

/-- What is known of a watermark: it is a fragment, and no fragment below it is free. -/
structure Low (m : Memory) (frags : List Nat) (l : Nat) : Prop where
  mem : l ∈ frags
  none : ∀ p ∈ frags, p < l → m.isfree p = false

theorem Low.raise (arena : Arena m hp frags) (low : Low m frags lowfree) (enough : frags.length ≤ fuel) :
    ∃ l, heapSetlowfree m fuel lowfree = some l ∧ Low m frags l ∧ (m.isfree l = true ∨ l = hp.limit) := by
  obtain ⟨post, rest⟩ := arena.rest low.mem
  obtain ⟨l, raised, inside, free, none⟩ := @heapSetlowfree_spec m hp frags post fuel lowfree arena rest
    (Nat.lt_of_lt_of_le rest.length enough)
  refine ⟨l, raised, ⟨rest.sub l inside, fun p among before => ?_⟩, free⟩
  by_cases below : p < lowfree
  · exact low.none p among below
  · exact none p (rest.later p among (by omega)) before

/-- From anywhere but the limit the search sees every free fragment. -/
theorem searchLoop_all (arena : Arena m hp frags) (low : Low m frags lowfree) (inside : start ∈ frags)
    (before : start < hp.limit) (enough : 2 * frags.length ≤ fuel) :
    ∃ out, searchLoop m nbytes fuel start start hp.limit lowfree rem = some out ∧
      ∀ l r, out = .addmem l r → Low m frags l ∧ (m.isfree l = true ∨ l = hp.limit) ∧
        ((∀ p ∈ frags, m.isfree p = false) → r = rem) ∧ ∀ p ∈ frags, ¬ Fits m nbytes p := by
  obtain ⟨post, rest⟩ := arena.rest inside
  have length := rest.length
  obtain ⟨left, rfl⟩ := Nat.exists_eq_add_of_le (show post.length + 1 ≤ fuel by omega)
  rw [show post.length + 1 + left = left + post.length + 1 by omega]
  rcases @searchLoop_pass m hp frags post nbytes left start start hp.limit lowfree rem arena rest (Nat.le_refl _) with
    ⟨p, r, next, l, found⟩ | ⟨first, j, -, rem', kept, turned⟩
  · exact ⟨_, found, fun _ _ eq => by cases eq⟩
  · obtain ⟨l, raised, low', free⟩ := @Low.raise m hp frags (left + j) lowfree arena low (by omega)
    obtain ⟨post', rest'⟩ := arena.rest low'.mem
    have length' := rest'.length
    obtain ⟨left', enough'⟩ := Nat.exists_eq_add_of_le (show post'.length + 1 ≤ left + j by omega)
    rw [turned, turn, if_pos before, raised]
    simp only [Option.bind_eq_bind, Option.bind_some]
    rw [enough', show post'.length + 1 + left' = left' + post'.length + 1 by omega]
    rcases @searchLoop_pass m hp frags post' nbytes left' l start start l rem' arena rest' (Nat.le_of_lt before) with
      ⟨p, r, next, l', found⟩ | ⟨second, j', -, rem'', kept', turned'⟩
    · exact ⟨_, found, fun _ _ eq => by cases eq⟩
    · rw [turned', turn, if_neg (Nat.lt_irrefl _)]
      refine ⟨_, rfl, fun _ _ eq => ?_⟩
      cases eq
      refine ⟨low', free, fun none => (kept' none).trans (kept none), fun p among fits => ?_⟩
      -- behind the start, between the watermark and the start, and below the watermark
      by_cases behind : start ≤ p
      · exact first p (rest.later p among behind) (arena.le_limit among) fits
      · by_cases above : l ≤ p
        · exact second p (rest'.later p among above) (by omega) fits
        · rw [Fits, low'.none p among (by omega)] at fits
          cases fits.1

end Passes

/-! ## The search -/

section Search

variable {m : Memory} {hp : Heap} {frags : List Nat} {nbytes fuel rem : Nat}

/-- The search starts at the limit, where the rover is. -/
def AtGuard (hp : Heap) : Prop := ¬ hp.low ∧ hp.rover = hp.limit

/-- What is known where more memory is added. -/
structure Grows (m : Memory) (hp : Heap) (frags : List Nat) (nbytes rem l r : Nat) : Prop where
  low : Low m frags l
  lowfree : AtGuard hp ∧ l = hp.lowfree ∨ ¬ AtGuard hp ∧ (m.isfree l = true ∨ l = hp.limit)
  rem : (∀ p ∈ frags, m.isfree p = false) → r = rem
  none : ¬ AtGuard hp → ∀ p ∈ frags, ¬ Fits m nbytes p

theorem heapSearch_ends (wf : WellFormed m hp frags) (nbytes rem : Nat) (enough : 2 * frags.length ≤ fuel) :
    ∃ out, heapSearch fuel m hp nbytes rem = some out ∧
      ∀ l r, out = .addmem l r → Grows m hp frags nbytes rem l r := by
  have arena := wf.toArena
  have low : Low m frags hp.lowfree := ⟨wf.lowfree, wf.low⟩
  have some : 0 < frags.length := List.length_pos_of_mem wf.rover
  obtain ⟨left, rfl⟩ := Nat.exists_eq_add_of_le (show 1 ≤ fuel by omega)
  rw [heapSearch]
  split
  next start =>
    have other : ¬ AtGuard hp := fun blind => blind.1 start
    obtain ⟨l, raised, low', free⟩ := @Low.raise m hp frags (1 + left) hp.lowfree arena low (by omega)
    rw [raised]
    simp only [Option.bind_eq_bind, Option.bind_some]
    rcases Nat.lt_or_ge l hp.limit with before | behind
    · obtain ⟨out, found, grows⟩ := @searchLoop_all m hp frags nbytes (1 + left) l l rem arena low' low'.mem before enough
      refine ⟨out, found, fun l' r eq => ?_⟩
      obtain ⟨low'', free', kept, none⟩ := grows l' r eq
      exact ⟨low'', Or.inr ⟨other, free'⟩, kept, fun _ => none⟩
    · obtain rfl : l = hp.limit := Nat.le_antisymm (arena.le_limit low'.mem) behind
      rw [Nat.add_comm, searchLoop_limit arena]
      refine ⟨_, rfl, fun l' r eq => ?_⟩
      cases eq
      refine ⟨low', Or.inr ⟨other, free⟩, fun _ => rfl, fun _ p among fits => ?_⟩
      rcases Nat.lt_or_ge p hp.limit with below | last
      · rw [Fits, low'.none p among below] at fits
        cases fits.1
      · rw [Fits, Nat.le_antisymm (arena.le_limit among) last, arena.limit_busy] at fits
        cases fits.1
  next start =>
    rcases Nat.lt_or_ge hp.rover hp.limit with before | behind
    · have other : ¬ AtGuard hp := fun blind => Nat.ne_of_lt before blind.2
      obtain ⟨out, found, grows⟩ :=
        @searchLoop_all m hp frags nbytes (1 + left) hp.rover hp.lowfree rem arena low wf.rover before enough
      refine ⟨out, found, fun l r eq => ?_⟩
      obtain ⟨low', free, kept, none⟩ := grows l r eq
      exact ⟨low', Or.inr ⟨other, free⟩, kept, fun _ => none⟩
    · have guard : hp.rover = hp.limit := Nat.le_antisymm (arena.le_limit wf.rover) behind
      have blind : AtGuard hp := ⟨start, guard⟩
      rw [guard, Nat.add_comm, searchLoop_limit arena]
      refine ⟨_, rfl, fun l r eq => ?_⟩
      cases eq
      exact ⟨low, Or.inl ⟨blind, rfl⟩, fun _ => rfl, fun other => absurd blind other⟩

/-- At the limit the search ends at once. -/
theorem heapSearch_atGuard (wf : WellFormed m hp frags) (blind : AtGuard hp) (nbytes rem : Nat) :
    heapSearch (fuel + 1) m hp nbytes rem = some (.addmem hp.lowfree rem) := by
  rw [heapSearch, if_neg blind.1, blind.2, searchLoop_limit wf.toArena]

end Search

/-- `heap_alloc` returns, and it has the heap grow only where no free fragment fits, if
    and only if its search does not start at the limit with a fragment that fits. -/
theorem heapAlloc_searches_iff (s : State) (frags : List Nat) (wf : WellFormed s.mem s.heap frags)
    (fuel n rem : Nat) (enough : 2 * frags.length ≤ fuel) :
    ((s.heapAlloc fuel n rem).isSome = true ∧
      ∀ l r, heapSearch fuel s.mem s.heap (adjust n s.heap) rem = some (.addmem l r) →
        ∀ p ∈ frags, ¬ Fits s.mem (adjust n s.heap) p) ↔
      ¬ (AtGuard s.heap ∧ ∃ p ∈ frags, Fits s.mem (adjust n s.heap) p) := by
  obtain ⟨out, found, grows⟩ := heapSearch_ends wf (adjust n s.heap) rem enough
  have base : s.heap.base ≠ 0 := Nat.ne_of_gt wf.some.1
  have returns : (s.heapAlloc fuel n rem).isSome = true := by
    simp only [State.heapAlloc, if_neg base, found, Option.map_some, Option.isSome_some]
  constructor
  · rintro ⟨-, covers⟩ ⟨blind, p, among, fits⟩
    have length : 0 < frags.length := List.length_pos_of_mem among
    obtain ⟨left, rfl⟩ := Nat.exists_eq_add_of_le (show 1 ≤ fuel by omega)
    rw [Nat.add_comm] at covers
    exact covers _ _ (heapSearch_atGuard wf blind _ rem) p among fits
  · intro seeing
    refine ⟨returns, fun l r added p among fits => ?_⟩
    rw [found] at added
    refine (grows l r (Option.some.inj added)).none (fun blind => seeing ⟨blind, p, among, fits⟩) p among fits

/-! ## A heap of seven fragments -/

/-- Memory with these words. -/
def ofWords (words : List (Nat × Nat)) : Memory := fun a => (words.lookup a).getD 0

/-- Five busy fragments, a free one and the limit. -/
def sevenLinks : Memory :=
  ofWords [(4096, 4128), (4100, 8184 + BUSY), (4128, 4160), (4132, 4096 + BUSY), (4160, 4192), (4164, 4128 + BUSY),
    (4192, 4224), (4196, 4160 + BUSY), (4224, 4256), (4228, 4192 + BUSY), (4256, 8184), (4260, 4224),
    (8184, 4096), (8188, 4256 + GUARD)]

def sevenFrags (rover : Nat) : State :=
  ⟨sevenLinks, ⟨4096, 8184, rover, 4256, 1, 5, 8, 16⟩, .user 8192 fun _ => true⟩

theorem sevenFrags_wf {rover : Nat} (among : rover ∈ [4096, 4128, 4160, 4192, 4224, 4256, 8184]) :
    WellFormed (sevenFrags rover).mem (sevenFrags rover).heap [4096, 4128, 4160, 4192, 4224, 4256, 8184] where
  linked := by
    simp only [Linked, sevenFrags]
    decide
  first := rfl
  last := rfl
  some := by
    simp only [sevenFrags]
    decide
  top := by
    simp only [sevenFrags]
    decide
  closed := by
    simp only [sevenFrags]
    decide
  guard := by
    simp only [sevenFrags]
    decide
  flags := by
    simp only [sevenFrags]
    decide
  rover := among
  lowfree := by
    simp only [sevenFrags]
    decide
  low := by
    simp only [sevenFrags]
    decide

theorem heapAlloc_searches_sevenFrags :
    ((sevenFrags 4224).heapAlloc 14 4000 0).isSome = true ∧
      ∀ l r, heapSearch 14 sevenLinks (sevenFrags 4224).heap 4000 0 = some (.addmem l r) →
        ∀ p ∈ [4096, 4128, 4160, 4192, 4224, 4256, 8184], ¬ Fits sevenLinks 4000 p :=
  (heapAlloc_searches_iff (sevenFrags 4224) _ (sevenFrags_wf (by decide)) 14 4000 0 (by decide)).mpr
    fun blind => absurd blind.1.2 (by decide)

/-- With the rover at the limit the heap grows for 64 bytes, though the free fragment has
    3928. -/
theorem heapAlloc_misses_fit :
    ¬ ∀ (s : State) (frags : List Nat), WellFormed s.mem s.heap frags → ∀ fuel n rem, 2 * frags.length ≤ fuel →
      (s.heapAlloc fuel n rem).isSome = true ∧
        ∀ l r, heapSearch fuel s.mem s.heap (adjust n s.heap) rem = some (.addmem l r) →
          ∀ p ∈ frags, ¬ Fits s.mem (adjust n s.heap) p := by
  intro all
  refine (all (sevenFrags 8184) _ (sevenFrags_wf (by decide)) 14 64 0 (by decide)).2 4256 0 (by decide) 4256
    (by decide) ⟨by decide, by decide⟩


end Irix.Malloc
