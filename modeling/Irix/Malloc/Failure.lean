import Irix.Malloc.Search

/-! # No more memory

Where `moremem` fails `heap_addmem` still takes the end of memory for the new limit, and
its uninitialised variable for a watermark that was at the old one.
-/

namespace Irix.Malloc

open Memory Function

namespace System

/-- The kernel has no page for the heap; a failed `sbrk` leaves the break alone. -/
def Exhausted : System → Prop
  | kernel vm => 128 ≤ vm.nextpte ∨ vm.limit ≤ vm.endofmem
  | user _ _ => True

/-- The pages of the kernel's region end within the address space. -/
def Within : System → Prop
  | kernel vm => vm.endofmem ≤ 4294967296 ∧ vm.limit + nbpg ≤ 4294967296
  | user brk _ => brk ≤ 4294967296

theorem Within.getendofmem_le {sys : System} (within : sys.Within) : sys.getendofmem ≤ 4294967296 := by
  cases sys with
  | kernel vm => exact within.1
  | user brk grants => exact within

/-- The end of memory that a failed `moremem` leaves. -/
theorem morePages_failed {npages : Nat} {vm : KheapVm} (failed : (morePages npages vm).1 = false) :
    (morePages npages vm).2.limit = vm.limit ∧ vm.endofmem ≤ (morePages npages vm).2.endofmem ∧
      ((morePages npages vm).2.endofmem = vm.endofmem ↔ 128 ≤ vm.nextpte ∨ vm.limit ≤ vm.endofmem) ∧
      ((morePages npages vm).2.endofmem = vm.endofmem ∨ (morePages npages vm).2.endofmem < vm.limit + nbpg) := by
  induction npages generalizing vm with
  | zero => cases failed
  | succ npages ih =>
      rw [morePages] at failed ⊢
      split at failed
      next none => simp [none]
      next some =>
        rw [if_neg some]
        obtain ⟨region, grows, -, within⟩ := ih failed
        dsimp only at grows within
        have page : nbpg = 4096 := rfl
        refine ⟨region, by omega, iff_of_false (by omega) some, Or.inr ?_⟩
        rcases within with same | within
        · omega
        · exact within

theorem moremem_failed {sys : System} {nbytes : Nat} (within : sys.Within) (failed : (sys.moremem nbytes).1 = none) :
    sys.getendofmem ≤ (sys.moremem nbytes).2.getendofmem ∧
      ((sys.moremem nbytes).2.getendofmem = sys.getendofmem ↔ sys.Exhausted) ∧
      (sys.moremem nbytes).2.Within := by
  cases sys with
  | kernel vm =>
      simp only [moremem] at failed ⊢
      split at failed
      next => cases failed
      next refused =>
        rw [Bool.not_eq_true] at refused
        obtain ⟨region, grows, same, room⟩ := morePages_failed refused
        obtain ⟨top, above⟩ := within
        exact ⟨grows, same, by omega, by omega⟩
  | user brk grants =>
      simp only [moremem] at failed ⊢
      generalize (if nbytes < nbpg - brk % nbpg then nbpg - brk % nbpg
        else add32 (nbpg - brk % nbpg) (add32 nbytes (nbpg - 1) / nbpg * nbpg)) = asked at failed ⊢
      split at failed
      next => cases failed
      next refused =>
        rw [if_neg refused]
        exact ⟨Nat.le_refl _, iff_of_true rfl trivial, within⟩

end System

section Failed

variable {s : State} {m : Memory} {hp : Heap} {frags : List Nat} {fuel n nbytes rem : Nat}

/-- The heap lies in memory. -/
structure InMemory (s : State) (frags : List Nat) : Prop extends WellFormed s.mem s.heap frags where
  ends : s.heap.limit + sizeofFragment ≤ s.sys.getendofmem
  within : s.sys.Within

/-- `heap_alloc` calls `moremem`, which returns `NULL`. -/
structure Refused (s : State) (fuel n rem : Nat) : Prop where
  grows : ∃ l r, heapSearch fuel s.mem s.heap (adjust n s.heap) rem = some (.addmem l r)
  null : (s.sys.moremem (s.request (add32 (adjust n s.heap) sizeofFragment))).1 = none

/-- `heap_alloc` has returned `NULL`, with the chain as it was, the watermark and the rover
    on it and nothing else written. -/
def Usable (s : State) (frags : List Nat) (out : Option (Option Nat × State)) : Prop :=
  ∃ s', out = some (none, s') ∧ InMemory s' frags ∧
    (∀ p ∈ frags, s'.mem p = s.mem p ∧ s'.mem (p + 4) = s.mem (p + 4)) ∧
    ∀ a, a < s.heap.base ∨ s.heap.limit + sizeofFragment ≤ a → s'.mem a = s.mem a

/-- The end of memory is the heap's, and stays; and the watermark is not at the limit,
    unless what the variable holds will do for it. -/
structure CanFail (s : State) (frags : List Nat) (rem : Nat) : Prop where
  ends : s.heap.limit + sizeofFragment = s.sys.getendofmem ∧ s.sys.Exhausted
  low : (∃ p ∈ frags, s.mem.isfree p = true) ∨ (AtGuard s.heap ∧ s.heap.lowfree ≠ s.heap.limit) ∨ rem ∈ frags

/-- The link from the limit to the base is there already. -/
theorem Arena.link_self (arena : Arena m hp frags) : m.link hp.limit hp.base = m := by
  have forth : update m hp.limit hp.base = m := by
    rw [update_eq_self_iff]
    exact arena.closed.1.symm
  have back : hp.limit ||| m.flags hp.base = m (hp.base + 4) := by
    have word : m (hp.base + 4) = 2 ^ 2 * (m (hp.base + 4) / 4) + m (hp.base + 4) % 4 :=
      (Nat.div_add_mod _ 4).symm
    have above : hp.limit = 2 ^ 2 * (m (hp.base + 4) / 4) := by
      rw [← arena.closed.2, prevfrag, Nat.mul_comm]
      rfl
    rw [above, Memory.flags, ← Nat.two_pow_add_eq_or_of_lt (Nat.mod_lt _ (by decide)), ← word]
  rw [link, forth, back, update_eq_self_iff]

/-- What `heap_alloc` does when it gets no memory. -/
theorem heapAlloc_refused (base : s.heap.base ≠ 0) {l r : Nat}
    (grows : heapSearch fuel s.mem s.heap (adjust n s.heap) rem = some (.addmem l r))
    (null : (s.sys.moremem (s.request (add32 (adjust n s.heap) sizeofFragment))).1 = none) :
    let sys := (s.sys.moremem (s.request (add32 (adjust n s.heap) sizeofFragment))).2
    let newlimit := sub32 sys.getendofmem sizeofFragment
    s.heapAlloc fuel n rem = some (none, ⟨s.mem.link newlimit s.heap.base,
      { s.heap with lowfree := if l = s.heap.limit then r else l, limit := newlimit }, sys⟩) := by
  have same : ({ s with heap := { s.heap with lowfree := l } } : State).request
      (add32 (adjust n s.heap) sizeofFragment) = s.request (add32 (adjust n s.heap) sizeofFragment) := rfl
  simp only [State.heapAlloc, if_neg base, grows, Option.map_some, State.afterSearch, State.heapAddmem, same, null]

end Failed

/-- After a call that got no memory the heap is as it was, with its watermark raised at
    most, if and only if the end of memory is the heap's own and has not moved, and the
    watermark is not at the limit or the uninitialised variable holds a fragment. -/
theorem heapAlloc_usable_iff (s : State) (frags : List Nat) (heap : InMemory s frags) (fuel n rem : Nat)
    (enough : 2 * frags.length ≤ fuel) (refused : Refused s fuel n rem) :
    Usable s frags (s.heapAlloc fuel n rem) ↔ CanFail s frags rem := by
  have wf := heap.toWellFormed
  have arena := wf.toArena
  have eight : sizeofFragment = 8 := rfl
  obtain ⟨⟨l, r, grows⟩, null⟩ := refused
  obtain ⟨out, found, known⟩ := heapSearch_ends wf (adjust n s.heap) rem enough
  rw [grows] at found
  obtain ⟨low, lowfree, kept, -⟩ := known l r (Option.some.inj found).symm
  obtain ⟨ends_grow, ends_same, within⟩ := System.moremem_failed heap.within null
  have refusal := heapAlloc_refused (Nat.ne_of_gt wf.some.1) grows null
  generalize (s.sys.moremem (s.request (add32 (adjust n s.heap) sizeofFragment))).2 = sys at *
  dsimp only at refusal
  rw [refusal]
  have ends := heap.ends
  have ends_top := within.getendofmem_le
  have top := arena.top
  -- the new limit is the old one where the end of memory has not moved
  have newlimit : sub32 sys.getendofmem sizeofFragment = s.heap.limit ↔
      s.heap.limit + sizeofFragment = s.sys.getendofmem ∧ s.sys.Exhausted := by
    rw [← ends_same, sub32]
    omega
  -- a watermark at the limit has no free fragment below it
  have none_free : l = s.heap.limit → ∀ p ∈ frags, s.mem.isfree p = false := by
    rintro rfl p among
    rcases Nat.lt_or_ge p s.heap.limit with below | last
    · exact low.none p among below
    · rw [Nat.le_antisymm (arena.le_limit among) last]
      exact arena.limit_busy
  constructor
  · rintro ⟨s', eq, usable, -⟩
    simp only [Option.some.injEq, Prod.mk.injEq, true_and] at eq
    subst eq
    have last := usable.last
    rw [arena.last] at last
    refine ⟨newlimit.mp (Option.some.inj last).symm, ?_⟩
    by_contra bad
    simp only [not_or, not_exists, not_and, Bool.not_eq_true, not_not] at bad
    obtain ⟨none, guard, outside⟩ := bad
    have at_limit : l = s.heap.limit := by
      rcases lowfree with ⟨blind, rfl⟩ | ⟨-, free | here⟩
      · exact guard blind
      · rw [none l low.mem] at free
        cases free
      · exact here
    have listed := usable.lowfree
    dsimp only at listed
    rw [if_pos at_limit, kept none] at listed
    exact outside listed
  · rintro ⟨ends, free⟩
    rw [newlimit.mpr ends, arena.link_self]
    have low' : Low s.mem frags (if l = s.heap.limit then r else l) := by
      split
      next at_limit =>
        have none := none_free at_limit
        rcases free with ⟨p, among, free⟩ | ⟨blind, away⟩ | listed
        · rw [none p among] at free
          cases free
        · rcases lowfree with ⟨-, same⟩ | ⟨seeing, -⟩
          · exact absurd (same.symm.trans at_limit) away
          · exact absurd blind seeing
        · rw [kept none]
          exact ⟨listed, fun p among _ => none p among⟩
      next => exact low
    refine ⟨_, rfl, ⟨⟨⟨arena.linked, arena.first, arena.last, arena.some, arena.top, arena.closed, arena.guard,
      arena.flags⟩, wf.rover, low'.mem, low'.none⟩, Nat.le_trans heap.ends ends_grow, within⟩,
      fun p _ => ⟨rfl, rfl⟩, fun a _ => rfl⟩

/-- The heap of seven fragments, where the break has reached its limit. -/
def sevenRefused : State := ⟨sevenLinks, (sevenFrags 4224).heap, .user 8192 fun _ => false⟩

theorem sevenRefused_inMemory : InMemory sevenRefused [4096, 4128, 4160, 4192, 4224, 4256, 8184] where
  toWellFormed := sevenFrags_wf (by decide)
  ends := by
    simp only [sevenRefused, sevenFrags]
    decide
  within := by
    simp only [sevenRefused, System.Within]
    decide

theorem heapAlloc_usable_sevenRefused :
    Usable sevenRefused [4096, 4128, 4160, 4192, 4224, 4256, 8184] (sevenRefused.heapAlloc 14 4000 0) :=
  (heapAlloc_usable_iff sevenRefused _ sevenRefused_inMemory 14 4000 0 (by decide)
    ⟨⟨4256, 8264, by decide⟩, by decide⟩).mpr
      ⟨⟨by decide, trivial⟩, Or.inl ⟨4256, by decide, by decide⟩⟩

/-- A heap whose one fragment is busy, and no more memory. -/
def oneBusy : State :=
  ⟨ofWords [(4096, 8184), (4100, 8184 + BUSY), (8184, 4096), (8188, 4096 + GUARD)],
    ⟨4096, 8184, 4096, 8184, 0, 1, 8, 16⟩, .user 8192 fun _ => false⟩

theorem oneBusy_inMemory : InMemory oneBusy [4096, 8184] where
  linked := by
    simp only [Linked, oneBusy]
    decide
  first := rfl
  last := rfl
  some := by
    simp only [oneBusy]
    decide
  top := by
    simp only [oneBusy]
    decide
  closed := by
    simp only [oneBusy]
    decide
  guard := by
    simp only [oneBusy]
    decide
  flags := by
    simp only [oneBusy]
    decide
  rover := by
    simp only [oneBusy]
    decide
  lowfree := by
    simp only [oneBusy]
    decide
  low := by
    simp only [oneBusy]
    decide
  ends := by
    simp only [oneBusy]
    decide
  within := by
    simp only [oneBusy, System.Within]
    decide

/-- The watermark takes what the uninitialised variable holds. -/
theorem heapAlloc_spoils_watermark :
    ¬ ∀ (s : State) (frags : List Nat), InMemory s frags → ∀ fuel n rem, 2 * frags.length ≤ fuel →
      Refused s fuel n rem → Usable s frags (s.heapAlloc fuel n rem) := by
  intro all
  have grows : heapSearch 4 oneBusy.mem oneBusy.heap (adjust 64 oneBusy.heap) 0 = some (.addmem 8184 0) := by
    decide
  have null : (oneBusy.sys.moremem (oneBusy.request (add32 (adjust 64 oneBusy.heap) sizeofFragment))).1 = none := by
    decide
  obtain ⟨s', eq, usable, -⟩ := all oneBusy _ oneBusy_inMemory 4 64 0 (by decide) ⟨⟨_, _, grows⟩, null⟩
  have refusal := heapAlloc_refused (by decide) grows null
  dsimp only at refusal
  rw [refusal] at eq
  simp only [Option.some.injEq, Prod.mk.injEq, true_and] at eq
  subst eq
  exact absurd usable.lowfree (by decide)

end Irix.Malloc
