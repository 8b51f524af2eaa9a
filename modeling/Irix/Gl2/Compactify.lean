import Irix.Gl2.Items
import Mathlib.Algebra.Order.Group.Nat
import Mathlib.Algebra.Order.Ring.Nat
import Mathlib.Algebra.Ring.Int.Defs
import Mathlib.Data.Nat.SuccPred
import Mathlib.Tactic.Common

/-! # Compacting an object

`compactify` copies the items of an object into new chunks, and has the hash table's entries of the
tags point there as it goes. If there is no memory for a chunk in the middle of this it gives up, but
of the new chunks it frees only one.
-/

namespace Irix.Gl2

open Function

/-- An object and the memory it is in. -/
structure Store where
  /-- the item at each place in the chunks -/
  code : Pos → Item
  /-- the chunk that `malloc` returns next -/
  fresh : Nat
  live : List Nat
  /-- what has been freed -/
  freed : List Nat
  head : Pos
  chunks : List Nat
  datasize : Int
  physicalsize : Nat
  tailptr : Pos
  tailend : Pos
  /-- the hash table's entries for the tags of this object -/
  hash : Int → Option Pos

namespace Store

variable (s : Store)

def malloc : Store := { s with fresh := s.fresh + 1, live := s.fresh :: s.live }

def free (s : Store) (chunk : Nat) : Store :=
  { s with live := s.live.erase chunk, freed := s.freed ++ [chunk] }

def replacehash (place : Pos) (tag : Int) : Store :=
  match s.hash tag with
  | none => s
  | some _ => { s with hash := update s.hash tag (some place) }

/-- `while (chunks) { ... return; }` -/
def giveUp : List Nat → Store
  | [] => s
  | chunk :: _ => s.free chunk

end Store

/-- How far the copy has come. -/
structure Draft where
  newptr : Pos
  chunks : List Nat
  datasize : Int
  physicalsize : Nat
  spaceleft : Int

inductive Result where
  | failed (s : Store)
  | compacted (s : Store)

/-- Room for an item of length `i`, in a new chunk if need be. -/
def room (memory : Nat → Bool) (half : Nat) (i : Int) (d : Draft) (s : Store) : Except Store (Draft × Store) :=
  if d.spaceleft < i then
    if memory (2 * d.chunks.length) = false then .error (s.giveUp d.chunks)
    else if memory (2 * d.chunks.length + 1) = false then
      .error ((s.malloc.free s.fresh).giveUp d.chunks)
    else
      .ok ({ d with
          newptr := ⟨s.fresh, 0⟩
          chunks := s.fresh :: d.chunks
          physicalsize := d.physicalsize + half
          spaceleft := half - 4 },
        { s.malloc with code := update s.code d.newptr (.jump ⟨s.fresh, 0⟩) })
  else .ok (d, s)

/-- An item is copied. -/
def put (item : Item) (d : Draft) (s : Store) : Draft × Store :=
  let s := match item with | .tag t => s.replacehash d.newptr t | _ => s
  ({ d with
      newptr := d.newptr.add item.length
      datasize := d.datasize + item.length
      spaceleft := d.spaceleft - item.length },
    { s with code := update s.code d.newptr item })

/-- The copy has come to the end. -/
def finish (head : Pos) (d : Draft) (s : Store) : Store :=
  let s := s.chunks.foldl Store.free s
  { s with
    code := update s.code d.newptr .retsym
    physicalsize := d.physicalsize
    datasize := d.datasize
    chunks := d.chunks
    head := head
    tailptr := d.newptr
    tailend := { d.newptr with off := (d.newptr.off + d.spaceleft + 4).toNat } }

/-- The loop. For each chunk `malloc` is called twice, for itself and for its cell of the list. -/
def copy (memory : Nat → Bool) (half : Nat) (head : Pos) : Nat → Pos → Draft → Store → Option Result
  | 0, _, _, _ => none
  | fuel + 1, oldptr, d, s =>
    match s.code oldptr with
    | .retsym => some (.compacted (finish head d s))
    | .jump place => copy memory half head fuel place d s
    | .slopnop2 => copy memory half head fuel (oldptr.add 2) d s
    | .slopnop3 => copy memory half head fuel (oldptr.add 3) d s
    | item =>
      match room memory half item.length d s with
      | .error s => some (.failed s)
      | .ok (d, s) =>
          copy memory half head fuel (oldptr.add item.length) (put item d s).1 (put item d s).2

def compactify (memory : Nat → Bool) (half fuel : Nat) (s : Store) : Option Result :=
  if memory 0 = false then some (.failed s)
  else if memory 1 = false then some (.failed (s.malloc.free s.fresh))
  else
    copy memory half ⟨s.fresh, 0⟩ fuel s.head
      { newptr := ⟨s.fresh, 0⟩
        chunks := [s.fresh]
        datasize := 0
        physicalsize := half
        spaceleft := half - 4 } s.malloc

/-! ## What is expected -/

def Item.Kept : Item → Bool
  | .tag _ | .command _ => true
  | _ => false

/-- The commands and tags in order. -/
def contents (items : List (Pos × Item)) : List Item := (items.map Prod.snd).filter Item.Kept

/-- A valid object: its tags are found where they are, and each item leaves room for a jump in a
    chunk. -/
structure Whole (half : Nat) (s : Store) (items : List (Pos × Item)) : Prop where
  trail : ∃ e, Trail s.code s.head items e ∧ e.chunk ∈ s.chunks
  inside : ∀ p i, (p, i) ∈ items → p.chunk ∈ s.chunks
  hash : ∀ t p, s.hash t = some p ↔ (p, Item.tag t) ∈ items
  some : ∀ p i, (p, i) ∈ items → 0 < i.length
  short : ∀ i ∈ contents items, i.length + 4 ≤ half
  room : 4 ≤ half
  once : s.chunks.Nodup
  live : ∀ c ∈ s.chunks, c ∈ s.live
  alive : s.live.Nodup
  old : ∀ c ∈ s.live, c < s.fresh

/-- The same commands and tags, in new chunks only. -/
structure Compacted (half : Nat) (s s' : Store) (items : List (Pos × Item)) : Prop where
  trail : ∃ items', Trail s'.code s'.head items' s'.tailptr ∧ contents items' = contents items ∧
    (∀ p i, (p, i) ∈ items' → p.chunk ∈ s'.chunks) ∧
    ∀ t p, s'.hash t = some p ↔ (p, Item.tag t) ∈ items'
  datasize : s'.datasize = ((contents items).map Item.length).sum
  tailptr : s'.tailptr.chunk ∈ s'.chunks
  tailend : s'.tailend = ⟨s'.tailptr.chunk, half⟩
  freed : s'.freed = s.freed ++ s.chunks
  new : ∀ c ∈ s'.chunks, c ∉ s.live
  live : s'.live.Perm (s'.chunks ++ s.chunks.foldl List.erase s.live)

/-- The object is as it was, and no chunk has come to it. -/
structure Intact (s s' : Store) : Prop where
  code : ∀ p, p.chunk < s.fresh → s'.code p = s.code p
  head : s'.head = s.head
  chunks : s'.chunks = s.chunks
  datasize : s'.datasize = s.datasize
  physicalsize : s'.physicalsize = s.physicalsize
  tailptr : s'.tailptr = s.tailptr
  tailend : s'.tailend = s.tailend
  hash : s'.hash = s.hash
  live : s'.live.Perm s.live

def Wanted (half : Nat) (s : Store) (items : List (Pos × Item)) : Result → Prop
  | .compacted s' => Compacted half s s' items
  | .failed s' => Intact s s'

/-- The items that go into a chunk with so much space, and those of the chunks behind it. -/
def pages (half : Nat) : Nat → List Item → List Item × List (List Item)
  | _, [] => ([], [])
  | space, i :: items =>
    if space < i.length then
      let (page, later) := pages half (half - 4 - i.length) items
      ([], (i :: page) :: later)
    else
      let (page, later) := pages half (space - i.length) items
      (i :: page, later)

def Item.isTag : Item → Bool
  | .tag _ => true
  | _ => false

/-- Memory for a chunk fails when there is more than one new chunk, or a tag has been copied. -/
def spoiled (memory : Nat → Bool) (half : Nat) : Nat → Nat → Bool → List Item → Bool
  | _, _, _, [] => false
  | space, k, tagged, i :: items =>
    if space < i.length then
      if memory (2 * k) = true ∧ memory (2 * k + 1) = true then
        spoiled memory half (half - 4 - i.length) (k + 1) (tagged || i.isTag) items
      else decide (2 ≤ k) || tagged
    else spoiled memory half (space - i.length) k (tagged || i.isTag) items

/-! ## Copying -/

section

variable {s₀ s s' : Store} {d d' : Draft} {half : Nat} {items rest : List (Pos × Item)} {item : Item}
  {memory : Nat → Bool} {p q e head : Pos} {i : Int} {tagged : Bool}

/-- The copy is made in new chunks, and nothing else has changed but entries of tags. -/
structure Drafting (s₀ : Store) (half : Nat) (d : Draft) (s : Store) : Prop where
  same : s = { s₀ with code := s.code, fresh := s.fresh, live := s.live, hash := s.hash }
  code : ∀ p, p.chunk < s₀.fresh → s.code p = s₀.code p
  live : s.live = d.chunks ++ s₀.live
  here : d.chunks.head? = some d.newptr.chunk
  new : ∀ c ∈ d.chunks, s₀.fresh ≤ c ∧ c < s.fresh
  space : (d.newptr.off : Int) + d.spaceleft + 4 = half
  left : 0 ≤ d.spaceleft
  known : ∀ t, s.hash t = none ↔ s₀.hash t = none

theorem Drafting.here_mem (drafting : Drafting s₀ half d s) : d.newptr.chunk ∈ d.chunks :=
  List.mem_of_head? drafting.here

/-- A new chunk goes on where the old one ends with a jump. -/
structure NewChunk (half : Nat) (d : Draft) (s : Store) (d' : Draft) (s' : Store) : Prop where
  newptr : d'.newptr = ⟨s.fresh, 0⟩
  chunks : d'.chunks = s.fresh :: d.chunks
  datasize : d'.datasize = d.datasize
  spaceleft : d'.spaceleft = half - 4
  fresh : s'.fresh = s.fresh + 1
  jump : s'.code d.newptr = .jump ⟨s.fresh, 0⟩
  code : ∀ q, q ≠ d.newptr → s'.code q = s.code q
  hash : s'.hash = s.hash

theorem room_here (fits : ¬d.spaceleft < i) : room memory half i d s = .ok (d, s) := if_neg fits

theorem room_new (drafting : Drafting s₀ half d s) (full : d.spaceleft < i) (four : 4 ≤ half)
    (some : memory (2 * d.chunks.length) = true ∧ memory (2 * d.chunks.length + 1) = true) :
    ∃ d' s', room memory half i d s = .ok (d', s') ∧ NewChunk half d s d' s' ∧
      Drafting s₀ half d' s' := by
  refine ⟨{ d with
      newptr := ⟨s.fresh, 0⟩
      chunks := s.fresh :: d.chunks
      physicalsize := d.physicalsize + half
      spaceleft := half - 4 },
    { s.malloc with code := update s.code d.newptr (.jump ⟨s.fresh, 0⟩) },
    ?_, ⟨rfl, rfl, rfl, rfl, rfl, ?_, ?_, rfl⟩, ?_⟩
  case refine_1 => rw [room, if_pos full, if_neg (by simp [some.1]), if_neg (by simp [some.2])]
  case refine_2 => simp
  case refine_3 => exact fun q other => by simp [other]
  case refine_4 =>
    have new := drafting.new _ drafting.here_mem
    constructor
    case same => exact congrArg (fun s : Store => ({ s with
      code := _, fresh := _, live := _, hash := _ } : Store)) drafting.same
    case code =>
      intro p old
      have other : p ≠ d.newptr := ne_of_chunk (by omega)
      simp only [update_of_ne other]
      exact drafting.code p old
    case live => exact congrArg (s.fresh :: ·) drafting.live
    case here => rfl
    case new =>
      simp only [List.forall_mem_cons]
      refine ⟨⟨by omega, by simp [Store.malloc]⟩, fun c listed => ?_⟩
      have bounds := drafting.new c listed
      simp only [Store.malloc]
      omega
    case space => simp
    case left => simp only; omega
    case known => exact drafting.known

/-- Where there is no memory one chunk is freed. -/
theorem room_fails (drafting : Drafting s₀ half d s) (full : d.spaceleft < i)
    (none : ¬(memory (2 * d.chunks.length) = true ∧ memory (2 * d.chunks.length + 1) = true)) :
    ∃ s', room memory half i d s = .error s' ∧
      s' = { s₀ with
        code := s.code, fresh := s'.fresh, live := d.chunks.tail ++ s₀.live, freed := s'.freed,
        hash := s.hash } := by
  have same := drafting.same
  obtain ⟨older, chunks⟩ : ∃ older, d.chunks = d.newptr.chunk :: older := by
    have here := drafting.here
    cases eq : d.chunks with
    | nil => rw [eq] at here; cases here
    | cons c older =>
        rw [eq] at here
        cases here
        exact ⟨older, rfl⟩
  have live : s.live.erase d.newptr.chunk = older ++ s₀.live := by
    rw [drafting.live, chunks]
    simp
  rw [room, if_pos full]
  cases first : memory (2 * d.chunks.length) with
  | false =>
      refine ⟨s.giveUp d.chunks, by simp, ?_⟩
      rw [chunks]
      simp only [Store.giveUp, Store.free, live, List.tail_cons]
      rw [same]
  | true =>
      have second : memory (2 * d.chunks.length + 1) = false := by
        cases second : memory (2 * d.chunks.length + 1) with
        | false => rfl
        | true => exact absurd ⟨first, second⟩ none
      refine ⟨(s.malloc.free s.fresh).giveUp d.chunks, by simp [second], ?_⟩
      have back : (s.malloc.free s.fresh).live = s.live := by simp [Store.malloc, Store.free]
      rw [chunks]
      simp only [Store.giveUp, Store.free, List.tail_cons] at back ⊢
      rw [back, live]
      simp only [Store.malloc]
      rw [same]

/-- What `put` does to the entries of the tags. -/
theorem put_hash (item : Item) (d : Draft) (s : Store) :
    (put item d s).2.hash = match item with
      | .tag t => if s.hash t = none then s.hash else update s.hash t (some d.newptr)
      | _ => s.hash := by
  cases item with
  | tag t =>
      cases known : s.hash t with
      | none => simp [put, Store.replacehash, known]
      | some p => simp [put, Store.replacehash, known]
  | retsym | jump | slopnop2 | slopnop3 | command => rfl

theorem put_rest (item : Item) (d : Draft) (s : Store) :
    (put item d s).2 = { s with
      code := update s.code d.newptr item, hash := (put item d s).2.hash } := by
  cases item with
  | tag t =>
      cases known : s.hash t with
      | none => simp [put, Store.replacehash, known]
      | some p => simp [put, Store.replacehash, known]
  | retsym | jump | slopnop2 | slopnop3 | command => rfl

theorem Drafting.put (drafting : Drafting s₀ half d s) (fits : (item.length : Int) ≤ d.spaceleft) :
    Drafting s₀ half (put item d s).1 (put item d s).2 := by
  have new := drafting.new _ drafting.here_mem
  have rest := put_rest item d s
  constructor
  case same =>
    rw [rest]
    exact congrArg (fun u : Store => ({ u with
      code := _, fresh := _, live := _, hash := _ } : Store)) drafting.same
  case code =>
    intro p old
    have other : p ≠ d.newptr := ne_of_chunk (by omega)
    rw [rest]
    simp only [update_of_ne other]
    exact drafting.code p old
  case live =>
    rw [rest]
    exact drafting.live
  case here => exact drafting.here
  case new =>
    rw [rest]
    exact drafting.new
  case space =>
    have space := drafting.space
    simp only [Gl2.put, add_off]
    omega
  case left => simp only [Gl2.put]; omega
  case known =>
    intro t
    rw [put_hash]
    cases item with
    | tag t' =>
        simp only
        split
        · exact drafting.known t
        · next found =>
            by_cases same : t = t'
            · subst same
              simpa [← drafting.known] using found
            · rw [update_of_ne same]
              exact drafting.known t
    | retsym | jump | slopnop2 | slopnop3 | command => exact drafting.known t

/-! ## The loop -/

theorem mem_contents {t : Int} : Item.tag t ∈ contents rest ↔ ∃ p, (p, Item.tag t) ∈ rest := by
  simp [contents, Item.Kept]

theorem contents_skip (skip : item.Kept = false) : contents ((p, item) :: rest) = contents rest := by
  simp [contents, skip]

theorem contents_kept (kept : item.Kept = true) :
    contents ((p, item) :: rest) = item :: contents rest := by
  simp [contents, kept]

theorem free_all (chunks : List Nat) (s : Store) :
    chunks.foldl Store.free s =
      { s with live := chunks.foldl List.erase s.live, freed := s.freed ++ chunks } := by
  induction chunks generalizing s with
  | nil => simp
  | cons c chunks ih => simp [ih, Store.free]

/-- Entries point to new chunks if a tag has been copied, and are as they were if not. -/
structure Tagged (s₀ s : Store) (tagged : Bool) : Prop where
  yes : tagged = true → ∃ t p, s.hash t = some p ∧ s₀.fresh ≤ p.chunk
  no : tagged = false → s.hash = s₀.hash

theorem Tagged.put (tags : Tagged s₀ s tagged) (drafting : Drafting s₀ half d s)
    (known : ∀ t, item = .tag t → s.hash t ≠ none) :
    Tagged s₀ (put item d s).2 (tagged || item.isTag) := by
  cases item with
  | tag t =>
      have entry : (Gl2.put (.tag t) d s).2.hash = update s.hash t (some d.newptr) := by
        rw [put_hash]
        simp only [known t rfl, if_false]
      refine ⟨fun _ => ⟨t, d.newptr, ?_, (drafting.new _ drafting.here_mem).1⟩, fun no => ?_⟩
      · rw [entry, update_self]
      · simp [Item.isTag] at no
  | retsym | jump | slopnop2 | slopnop3 | command =>
      have same : ∀ i : Item, (∀ t, i ≠ .tag t) → (Gl2.put i d s).2.hash = s.hash := by
        intro i plain
        rw [put_hash]
        cases i with
        | tag t => exact absurd rfl (plain t)
        | retsym | jump | slopnop2 | slopnop3 | command => rfl
      simp only [Item.isTag, Bool.or_false]
      refine ⟨fun yes => ?_, fun no => ?_⟩
      · rw [same _ (by simp)]
        exact tags.yes yes
      · rw [same _ (by simp)]
        exact tags.no no

/-- The rest of the items has been copied behind what there was. -/
structure Copied (s₀ : Store) (half : Nat) (d : Draft) (s : Store) (rest : List (Pos × Item)) (s' : Store) :
    Prop where
  copied : ∃ items', Trail s'.code d.newptr items' s'.tailptr ∧ contents items' = contents rest ∧
    (∀ p i, (p, i) ∈ items' → p.chunk ∈ s'.chunks) ∧
    ∀ t p, (p, Item.tag t) ∈ items' → s'.hash t = some p
  frame : ∀ q, q.chunk < s.fresh → q.chunk ≠ d.newptr.chunk ∨ q.off < d.newptr.off →
    s'.code q = s.code q
  others : ∀ t, Item.tag t ∉ contents rest → s'.hash t = s.hash t
  datasize : s'.datasize = d.datasize + ((contents rest).map Item.length).sum
  tailptr : s'.tailptr.chunk ∈ s'.chunks
  tailend : s'.tailend = ⟨s'.tailptr.chunk, half⟩
  freed : s'.freed = s₀.freed ++ s₀.chunks
  new : ∀ c ∈ s'.chunks, s₀.fresh ≤ c
  more : ∀ c ∈ d.chunks, c ∈ s'.chunks
  live : s'.live = s₀.chunks.foldl List.erase (s'.chunks ++ s₀.live)

theorem finish_copied (drafting : Drafting s₀ half d s) : Copied s₀ half d s [] (finish head d s) := by
  have chunks : s.chunks = s₀.chunks := by rw [drafting.same]
  have freed : s.freed = s₀.freed := by rw [drafting.same]
  have space := drafting.space
  constructor
  case copied => exact ⟨[], .last (by simp [finish]), rfl, by simp, by simp⟩
  case frame =>
    intro q inside behind
    have other : q ≠ d.newptr := by
      intro same
      subst same
      omega
    simp [finish, free_all, other]
  case others =>
    intro t new
    simp [finish, free_all]
  case datasize => simp [finish, contents]
  case tailptr => exact drafting.here_mem
  case tailend =>
    simp only [finish, Pos.mk.injEq, true_and]
    omega
  case freed => simp [finish, free_all, chunks, freed]
  case new => exact fun c listed => (drafting.new c listed).1
  case more => exact fun c listed => listed
  case live => simp [finish, free_all, chunks, drafting.live]

/-- What has been copied behind an item that has been put down. -/
theorem Copied.put {s' : Store} (drafting : Drafting s₀ half d s) (kept : item.Kept = true)
    (some : 0 < item.length) (known : ∀ t, item = .tag t → s.hash t ≠ none)
    (once : ∀ t, item = .tag t → Item.tag t ∉ contents rest)
    (copied : Copied s₀ half (put item d s).1 (put item d s).2 rest s') :
    Copied s₀ half d s ((p, item) :: rest) s' := by
  have rest_eq := put_rest item d s
  have fresh : (Gl2.put item d s).2.fresh = s.fresh := by rw [rest_eq]
  have code : (Gl2.put item d s).2.code = update s.code d.newptr item := by rw [rest_eq]
  have new := drafting.new _ drafting.here_mem
  -- the item stays where it is
  have here : s'.code d.newptr = item := by
    rw [copied.frame _ (by omega) (Or.inr (by simp only [Gl2.put, add_off]; omega)), code]
    exact update_self ..
  have next : item.next d.newptr = Option.some (d.newptr.add item.length) := by
    cases item with
    | tag | command => rfl
    | retsym | jump | slopnop2 | slopnop3 => cases kept
  obtain ⟨items', trail, same, inside, tags⟩ := copied.copied
  constructor
  case copied =>
    refine ⟨(d.newptr, item) :: items', trail.cons here next, ?_, ?_, ?_⟩
    · rw [contents_kept kept, contents_kept kept, same]
    · intro q i listed
      rcases List.mem_cons.mp listed with first | later
      · cases first
        exact copied.more _ drafting.here_mem
      · exact inside q i later
    · intro t q listed
      rcases List.mem_cons.mp listed with first | later
      · cases first
        rw [copied.others t (once t rfl), put_hash]
        simp only [known t rfl, if_false, update_self]
      · exact tags t q later
  case frame =>
    intro q inside behind
    have other : q ≠ d.newptr := by
      intro same
      subst same
      omega
    rw [copied.frame q (by omega) (by simp only [Gl2.put, add_off, add_chunk]; omega), code,
      update_of_ne other]
  case others =>
    intro t new
    rw [contents_kept kept, List.mem_cons, not_or] at new
    rw [copied.others t new.2, put_hash]
    cases item with
    | tag t' =>
        have other : t ≠ t' := fun same => new.1 (by rw [same])
        simp only
        split
        · rfl
        · exact update_of_ne other ..
    | retsym | jump | slopnop2 | slopnop3 | command => rfl
  case datasize =>
    rw [copied.datasize, contents_kept kept]
    simp only [Gl2.put, List.map_cons, List.sum_cons]
    omega
  case tailptr => exact copied.tailptr
  case tailend => exact copied.tailend
  case freed => exact copied.freed
  case new => exact copied.new
  case more => exact copied.more
  case live => exact copied.live

/-- What has been copied into a new chunk and those behind it. -/
theorem Copied.newChunk {u : Store} (drafting : Drafting s₀ half d s) (chunk : NewChunk half d s d' s')
    (copied : Copied s₀ half d' s' rest u) : Copied s₀ half d s rest u := by
  have new := drafting.new _ drafting.here_mem
  have frame : ∀ q, q.chunk < s.fresh → u.code q = s'.code q := by
    intro q inside
    apply copied.frame q
    · rw [chunk.fresh]
      omega
    · rw [chunk.newptr]
      left
      exact Nat.ne_of_lt inside
  have more : ∀ c ∈ d.chunks, c ∈ u.chunks := by
    intro c listed
    apply copied.more
    rw [chunk.chunks]
    exact List.mem_cons_of_mem _ listed
  obtain ⟨items', trail, same, inside, tags⟩ := copied.copied
  constructor
  case copied =>
    refine ⟨(d.newptr, .jump ⟨s.fresh, 0⟩) :: items', ?_, ?_, ?_, ?_⟩
    · rw [chunk.newptr] at trail
      exact trail.cons ((frame _ new.2).trans chunk.jump) rfl
    · rwa [contents_skip rfl]
    · intro q i listed
      rcases List.mem_cons.mp listed with first | later
      · cases first
        exact more _ drafting.here_mem
      · exact inside q i later
    · intro t q listed
      rcases List.mem_cons.mp listed with first | later
      · cases first
      · exact tags t q later
  case frame =>
    intro q inside behind
    have other : q ≠ d.newptr := by
      intro same
      subst same
      omega
    rw [frame q inside, chunk.code q other]
  case others =>
    intro t new
    rw [copied.others t new, chunk.hash]
  case datasize => rw [copied.datasize, chunk.datasize]
  case tailptr => exact copied.tailptr
  case tailend => exact copied.tailend
  case freed => exact copied.freed
  case new => exact copied.new
  case more => exact more
  case live => exact copied.live

/-- How the loop ends. -/
inductive Final (memory : Nat → Bool) (half : Nat) (s₀ : Store) (d : Draft) (s : Store) (head : Pos)
    (tagged : Bool) (rest : List (Pos × Item)) : Result → Prop
  | compacted {s' : Store} (copied : Copied s₀ half d s rest s') (start : s'.head = head)
      (good : spoiled memory half d.spaceleft.toNat d.chunks.length tagged (contents rest) = false) :
      Final memory half s₀ d s head tagged rest (.compacted s')
  | failed {s' : Store} (intact : Intact s₀ s' ↔
        spoiled memory half d.spaceleft.toNat d.chunks.length tagged (contents rest) = false) :
      Final memory half s₀ d s head tagged rest (.failed s')

theorem full_iff (drafting : Drafting s₀ half d s) (n : Nat) :
    d.spaceleft.toNat < n ↔ d.spaceleft < n := by
  have left := drafting.left
  omega

theorem spoiled_here {k n : Nat} (fits : ¬n < item.length) :
    spoiled memory half n k tagged (item :: contents rest) =
      spoiled memory half (n - item.length) k (tagged || item.isTag) (contents rest) := if_neg fits

theorem Final.put {r : Result} (drafting : Drafting s₀ half d s) (kept : item.Kept = true)
    (fits : ¬d.spaceleft < item.length) (some : 0 < item.length)
    (known : ∀ t, item = .tag t → s.hash t ≠ none)
    (once : ∀ t, item = .tag t → Item.tag t ∉ contents rest)
    (final : Final memory half s₀ (put item d s).1 (put item d s).2 head (tagged || item.isTag) rest r) :
    Final memory half s₀ d s head tagged ((p, item) :: rest) r := by
  have here : spoiled memory half d.spaceleft.toNat d.chunks.length tagged (contents ((p, item) :: rest)) =
      spoiled memory half (Gl2.put item d s).1.spaceleft.toNat (Gl2.put item d s).1.chunks.length
        (tagged || item.isTag) (contents rest) := by
    have less : (Gl2.put item d s).1.spaceleft.toNat = d.spaceleft.toNat - item.length := by
      simp only [Gl2.put]
      omega
    rw [contents_kept kept, spoiled_here (by rwa [full_iff drafting]), less]
    rfl
  cases final with
  | compacted copied start good =>
      exact .compacted (copied.put drafting kept some known once) start (by rwa [here])
  | failed intact => exact .failed (by rwa [here])

/-- A chunk is full, and there is memory for the next one. -/
theorem Final.newChunk {r : Result} (drafting : Drafting s₀ half d s) (kept : item.Kept = true)
    (full : d.spaceleft < item.length) (short : item.length + 4 ≤ half)
    (two : memory (2 * d.chunks.length) = true ∧ memory (2 * d.chunks.length + 1) = true)
    (chunk : NewChunk half d s d' s')
    (final : Final memory half s₀ d' s' head tagged ((p, item) :: rest) r) :
    Final memory half s₀ d s head tagged ((p, item) :: rest) r := by
  have here : spoiled memory half d.spaceleft.toNat d.chunks.length tagged (contents ((p, item) :: rest)) =
      spoiled memory half d'.spaceleft.toNat d'.chunks.length tagged (contents ((p, item) :: rest)) := by
    have less : d'.spaceleft.toNat = half - 4 := by
      rw [chunk.spaceleft]
      omega
    rw [contents_kept kept, spoiled, if_pos (by rwa [full_iff drafting]), if_pos two, less,
      chunk.chunks, List.length_cons, spoiled_here (by omega)]
  cases final with
  | compacted copied start good => exact .compacted (copied.newChunk drafting chunk) start (by rwa [here])
  | failed intact => exact .failed (by rwa [here])

/-- A chunk is full, and there is no memory. The object is as it was if the only new chunk is freed
    again and no entry has been changed. -/
theorem gave_up (drafting : Drafting s₀ half d s) (tags : Tagged s₀ s tagged)
    (known : ∀ t p, s₀.hash t = some p → p.chunk < s₀.fresh)
    (given : s' = { s₀ with
      code := s.code, fresh := s'.fresh, live := d.chunks.tail ++ s₀.live, freed := s'.freed,
      hash := s.hash }) :
    Intact s₀ s' ↔ (decide (2 ≤ d.chunks.length) || tagged) = false := by
  have one := List.length_pos_of_mem drafting.here_mem
  have hash : s'.hash = s.hash := by rw [given]
  have live : s'.live = d.chunks.tail ++ s₀.live := by rw [given]
  constructor
  · intro intact
    have length := intact.live.length_eq
    simp only [live, List.length_append, List.length_tail] at length
    cases tagged with
    | false => simp; omega
    | true =>
        obtain ⟨t, p, entry, new⟩ := tags.yes rfl
        rw [← hash, intact.hash] at entry
        have old := known t p entry
        omega
  · intro good
    simp only [Bool.or_eq_false_iff, decide_eq_false_iff_not] at good
    have tail : d.chunks.tail = [] := List.length_eq_zero_iff.mp (by simp; omega)
    rw [tail] at given
    rw [given]
    exact ⟨drafting.code, rfl, rfl, rfl, rfl, rfl, rfl, tags.no good.2, .refl _⟩

/-- Items that are to be copied. -/
structure Source (s₀ : Store) (half : Nat) (rest : List (Pos × Item)) : Prop where
  entries : ∀ t p, s₀.hash t = some p → p.chunk < s₀.fresh
  old : ∀ q i, (q, i) ∈ rest → q.chunk < s₀.fresh
  lengths : ∀ q i, (q, i) ∈ rest → 0 < i.length
  short : ∀ i ∈ contents rest, i.length + 4 ≤ half
  hash : ∀ t q, (q, Item.tag t) ∈ rest → s₀.hash t = some q

theorem Source.tail (source : Source s₀ half ((p, item) :: rest)) : Source s₀ half rest := by
  constructor
  case entries => exact source.entries
  case old => exact fun q i listed => source.old q i (.tail _ listed)
  case lengths => exact fun q i listed => source.lengths q i (.tail _ listed)
  case short =>
    intro i listed
    apply source.short i
    simp only [contents, List.map_cons, List.filter_cons]
    split
    · exact .tail _ listed
    · exact listed
  case hash => exact fun t q listed => source.hash t q (.tail _ listed)

theorem Copied.skip {u : Store} (skip : item.Kept = false) (copied : Copied s₀ half d s rest u) :
    Copied s₀ half d s ((p, item) :: rest) u := by
  have same : contents ((p, item) :: rest) = contents rest := contents_skip skip
  constructor
  case copied => rw [same]; exact copied.copied
  case frame => exact copied.frame
  case others => rw [same]; exact copied.others
  case datasize => rw [same]; exact copied.datasize
  case tailptr => exact copied.tailptr
  case tailend => exact copied.tailend
  case freed => exact copied.freed
  case new => exact copied.new
  case more => exact copied.more
  case live => exact copied.live

/-- What the loop does at the end of the object or from there on. -/
def Runs (memory : Nat → Bool) (half : Nat) (s₀ : Store) (head p : Pos) (d : Draft) (s : Store)
    (tagged : Bool) (rest : List (Pos × Item)) : Prop :=
  ∃ N r, (∀ fuel, N ≤ fuel → copy memory half head fuel p d s = some r) ∧
    Final memory half s₀ d s head tagged rest r

theorem Runs.skip (skip : item.Kept = false)
    (onward : ∀ fuel, copy memory half head (fuel + 1) p d s = copy memory half head fuel q d s)
    (runs : Runs memory half s₀ head q d s tagged rest) :
    Runs memory half s₀ head p d s tagged ((p, item) :: rest) := by
  obtain ⟨N, r, runs, final⟩ := runs
  refine ⟨N + 1, r, fun fuel enough => ?_, ?_⟩
  · obtain ⟨fuel, rfl⟩ : ∃ f, fuel = f + 1 := ⟨fuel - 1, by omega⟩
    rw [onward]
    exact runs fuel (by omega)
  · cases final with
    | compacted copied start good =>
        exact .compacted (copied.skip skip) start (by rwa [contents_skip skip])
    | failed intact => exact .failed (by rwa [contents_skip skip])

/-- A command or a tag is copied, into a new chunk if need be. -/
theorem Runs.keep (kept : item.Kept = true) (again : ∀ j, (p, j) ∉ rest)
    (source : Source s₀ half ((p, item) :: rest)) (drafting : Drafting s₀ half d s)
    (tags : Tagged s₀ s tagged)
    (onward : ∀ fuel, copy memory half head (fuel + 1) p d s =
      match room memory half item.length d s with
      | .error s => some (.failed s)
      | .ok (d, s) => copy memory half head fuel q (put item d s).1 (put item d s).2)
    (runs : ∀ d s tagged, Drafting s₀ half d s → Tagged s₀ s tagged →
      Runs memory half s₀ head q d s tagged rest) :
    Runs memory half s₀ head p d s tagged ((p, item) :: rest) := by
  have short := source.short item (by simp [contents_kept kept])
  have some := source.lengths p item (by simp)
  have found : ∀ t, item = .tag t → s₀.hash t ≠ none := by
    rintro t rfl
    simp [source.hash t p (by simp)]
  have once : ∀ t, item = .tag t → Item.tag t ∉ contents rest := by
    rintro t rfl listed
    obtain ⟨r, listed⟩ := mem_contents.mp listed
    have first := source.hash t p (by simp)
    have second := source.hash t r (by simp [listed])
    rw [first] at second
    cases second
    exact again _ listed
  have known {d s} (drafting : Drafting s₀ half d s) : ∀ t, item = .tag t → s.hash t ≠ none := by
    intro t same
    rw [ne_eq, drafting.known]
    exact found t same
  by_cases full : d.spaceleft < item.length
  · by_cases two : memory (2 * d.chunks.length) = true ∧ memory (2 * d.chunks.length + 1) = true
    · obtain ⟨d', s', roomy, chunk, drafting'⟩ := room_new drafting full (by omega) two
      have tags' : Tagged s₀ s' tagged := by
        constructor
        · rw [chunk.hash]
          exact tags.yes
        · rw [chunk.hash]
          exact tags.no
      have fits' : (item.length : Int) ≤ d'.spaceleft := by
        rw [chunk.spaceleft]
        omega
      obtain ⟨N, r, runs, final⟩ := runs _ _ _ (drafting'.put fits')
        (tags'.put drafting' (known drafting'))
      refine ⟨N + 1, r, fun fuel enough => ?_, .newChunk drafting kept full short two chunk
        (.put drafting' kept (by omega) some (known drafting') once final)⟩
      obtain ⟨fuel, rfl⟩ : ∃ f, fuel = f + 1 := ⟨fuel - 1, by omega⟩
      rw [onward, roomy]
      exact runs fuel (by omega)
    · obtain ⟨s', fails, given⟩ := room_fails drafting full two
      refine ⟨1, .failed s', fun fuel enough => ?_, .failed ?_⟩
      · obtain ⟨fuel, rfl⟩ : ∃ f, fuel = f + 1 := ⟨fuel - 1, by omega⟩
        rw [onward, fails]
      · rw [contents_kept kept, spoiled, if_pos (by rwa [full_iff drafting]), if_neg two]
        exact gave_up drafting tags source.entries given
  · have fits' : (item.length : Int) ≤ d.spaceleft := by omega
    obtain ⟨N, r, runs, final⟩ := runs _ _ _ (drafting.put fits')
      (tags.put drafting (known drafting))
    refine ⟨N + 1, r, fun fuel enough => ?_, .put drafting kept full some (known drafting) once final⟩
    obtain ⟨fuel, rfl⟩ : ∃ f, fuel = f + 1 := ⟨fuel - 1, by omega⟩
    rw [onward, room_here full]
    exact runs fuel (by omega)

/-- The loop runs to the end of the object at the latest. -/
theorem copy_spec (trail : Trail s₀.code p rest e) (last : e.chunk < s₀.fresh)
    (source : Source s₀ half rest) (drafting : Drafting s₀ half d s) (tags : Tagged s₀ s tagged) :
    Runs memory half s₀ head p d s tagged rest := by
  induction trail generalizing d s tagged with
  | @last p ends =>
      refine ⟨1, .compacted (finish head d s), fun fuel enough => ?_,
        .compacted (finish_copied drafting) rfl rfl⟩
      obtain ⟨fuel, rfl⟩ : ∃ f, fuel = f + 1 := ⟨fuel - 1, by omega⟩
      simp only [copy, drafting.code p last, ends]
  | @step p q e rest next trail ih =>
      have code := drafting.code p (source.old p (s₀.code p) (by simp))
      have again := (Trail.step next trail).not_again
      have later := ih last source.tail drafting tags
      cases here : s₀.code p with
      | retsym =>
          rw [here] at next
          cases next
      | jump =>
          rw [here] at next
          cases next
          apply later.skip rfl
          intro fuel
          simp only [copy, code, here]
      | slopnop2 | slopnop3 =>
          rw [here] at next
          cases next
          apply later.skip rfl
          intro fuel
          simp only [copy, code, here]
          rfl
      | tag | command =>
          rw [here] at next source
          cases next
          apply Runs.keep rfl again source drafting tags
          · intro fuel
            simp only [copy, code, here]
            rfl
          · exact fun d s tagged => ih last source.tail

/-- Failing for want of memory does no harm only in the first of the new chunks and before its first
    tag. -/
theorem spoiled_iff {n k : Nat} {l : List Item} (one : 1 ≤ k) :
    spoiled memory half n k tagged l = false ↔
      (∀ j < (pages half n l).2.length,
          memory (2 * (k + j)) = true ∧ memory (2 * (k + j) + 1) = true) ∨
        k = 1 ∧ ¬(memory 2 = true ∧ memory 3 = true) ∧ tagged = false ∧
          ∀ i ∈ (pages half n l).1, i.isTag = false := by
  induction l generalizing n k tagged with
  | nil => simp [spoiled, pages]
  | cons i l ih =>
      by_cases full : n < i.length
      · by_cases two : memory (2 * k) = true ∧ memory (2 * k + 1) = true
        · rw [spoiled, if_pos full, if_pos two, ih (by omega), pages, if_pos full]
          simp only [List.length_cons]
          constructor
          · rintro (all | ⟨zero, -⟩)
            · left
              intro j inside
              cases j with
              | zero => exact two
              | succ j =>
                  have next := all j (by omega)
                  rwa [show k + 1 + j = k + (j + 1) by omega] at next
            · omega
          · rintro (all | ⟨rfl, none, -⟩)
            · left
              intro j inside
              have next := all (j + 1) (by omega)
              rwa [show k + (j + 1) = k + 1 + j by omega] at next
            · exact absurd two none
        · rw [spoiled, if_pos full, if_neg two, pages, if_pos full]
          simp only [List.length_cons, List.not_mem_nil, false_implies, implies_true, and_true,
            Bool.or_eq_false_iff, decide_eq_false_iff_not]
          constructor
          · rintro ⟨first, untagged⟩
            obtain rfl : k = 1 := by omega
            exact Or.inr ⟨rfl, two, untagged⟩
          · rintro (all | ⟨rfl, -, untagged⟩)
            · exact absurd (all 0 (by omega)) two
            · exact ⟨by omega, untagged⟩
      · rw [spoiled, if_neg full, ih one, pages, if_neg full]
        simp only [Bool.or_eq_false_iff, List.forall_mem_cons, and_assoc]

/-! ## The whole call -/

theorem Whole.source (whole : Whole half s items) : Source s half items := by
  have placed : ∀ q i, (q, i) ∈ items → q.chunk < s.fresh :=
    fun q i listed => whole.old _ (whole.live _ (whole.inside q i listed))
  constructor
  case entries =>
    intro t p entry
    exact placed p _ ((whole.hash t p).mp entry)
  case old => exact placed
  case lengths => exact whole.some
  case short => exact whole.short
  case hash => exact fun t q listed => (whole.hash t q).mpr listed

theorem foldl_erase {new old live : List Nat} (apart : ∀ c ∈ old, c ∉ new) :
    old.foldl List.erase (new ++ live) = new ++ old.foldl List.erase live := by
  induction old generalizing live with
  | nil => rfl
  | cons c old ih =>
      rw [List.foldl_cons, List.foldl_cons, List.erase_append_right _ (apart c (by simp)),
        ih fun d listed => apart d (by simp [listed])]

/-- A copy that has been completed is the one expected. -/
theorem Copied.compacted {u : Store} (copied : Copied s half d s' items u) (whole : Whole half s items)
    (first : d.datasize = 0) (hash : s'.hash = s.hash) (start : u.head = d.newptr) : Compacted half s u items := by
  have apart : ∀ c ∈ u.chunks, c ∉ s.live := by
    intro c listed live
    have new := copied.new c listed
    have old := whole.old c live
    omega
  obtain ⟨items', trail, same, inside, tags⟩ := copied.copied
  constructor
  case trail =>
    refine ⟨items', by rwa [start], same, inside, fun t p => ⟨fun entry => ?_, tags t p⟩⟩
    by_cases there : Item.tag t ∈ contents items
    · rw [← same] at there
      obtain ⟨q, listed⟩ := mem_contents.mp there
      rw [tags t q listed] at entry
      cases entry
      exact listed
    · rw [copied.others t there, hash, whole.hash] at entry
      exact absurd (mem_contents.mpr ⟨p, entry⟩) there
  case datasize => rw [copied.datasize, first, Int.zero_add]
  case tailptr => exact copied.tailptr
  case tailend => exact copied.tailend
  case freed => exact copied.freed
  case new => exact apart
  case live =>
    rw [copied.live, foldl_erase fun c old new => apart c new (whole.live c old)]

/-- The call returns this. -/
def Returns (memory : Nat → Bool) (half : Nat) (s : Store) (r : Result) : Prop :=
  ∃ N, ∀ fuel, N ≤ fuel → compactify memory half fuel s = some r

theorem Returns.wanted_iff {r : Result} (returns : Returns memory half s r) :
    (∃ r', Returns memory half s r' ∧ Wanted half s items r') ↔ Wanted half s items r := by
  constructor
  · rintro ⟨r', other, wanted⟩
    obtain ⟨N, runs⟩ := returns
    obtain ⟨N', runs'⟩ := other
    have same := (runs (max N N') (by omega)).symm.trans (runs' (max N N') (by omega))
    cases same
    exact wanted
  · exact fun wanted => ⟨r, returns, wanted⟩

/-- The first chunk is begun. -/
theorem drafting_first (whole : Whole half s items) :
    Drafting s half
      { newptr := ⟨s.fresh, 0⟩, chunks := [s.fresh], datasize := 0, physicalsize := half,
        spaceleft := half - 4 } s.malloc := by
  have room := whole.room
  constructor
  case same => rfl
  case code => exact fun p old => rfl
  case live => rfl
  case here => rfl
  case new => simp [Store.malloc]
  case space => simp
  case left => simp only; omega
  case known => exact fun t => Iff.rfl

/-- The call ends, and the object is compacted or as it was exactly if there is memory for all the
    chunks, or for none, or the second one cannot be had before a tag has been copied. -/
theorem compactify_iff (whole : Whole half s items) (memory : Nat → Bool) :
    (∃ r, Returns memory half s r ∧ Wanted half s items r) ↔
      memory 0 = false ∨ memory 1 = false ∨
        (∀ j < (pages half (half - 4) (contents items)).2.length,
          memory (2 * (1 + j)) = true ∧ memory (2 * (1 + j) + 1) = true) ∨
        ¬(memory 2 = true ∧ memory 3 = true) ∧
          ∀ i ∈ (pages half (half - 4) (contents items)).1, i.isTag = false := by
  cases first : memory 0 with
  | false =>
      have returns : Returns memory half s (.failed s) := ⟨0, fun fuel _ => by simp [compactify, first]⟩
      rw [returns.wanted_iff]
      have intact : Intact s s := by
        constructor
        case live => exact .refl _
        all_goals intros; rfl
      exact iff_of_true intact (by simp)
  | true =>
      cases second : memory 1 with
      | false =>
          have returns : Returns memory half s (.failed (s.malloc.free s.fresh)) :=
            ⟨0, fun fuel _ => by simp [compactify, first, second]⟩
          rw [returns.wanted_iff]
          have intact : Intact s (s.malloc.free s.fresh) := by
            constructor
            case live => simp [Store.malloc, Store.free]
            all_goals intros; rfl
          exact iff_of_true intact (by simp)
      | true =>
          obtain ⟨e, trail, last⟩ := whole.trail
          have drafting := drafting_first whole
          have tags : Tagged s s.malloc false := ⟨by simp, fun _ => rfl⟩
          obtain ⟨N, r, runs, final⟩ : Runs memory half s ⟨s.fresh, 0⟩ s.head _ s.malloc false items :=
            copy_spec trail (whole.old _ (whole.live _ last)) whole.source drafting tags
          have returns : Returns memory half s r :=
            ⟨N, fun fuel enough => by
              simp only [compactify, first, second, Bool.true_eq_false, if_false]
              exact runs fuel enough⟩
          have good_iff := @spoiled_iff half memory false (half - 4) 1 (contents items) (by omega)
          have space : ((half : Int) - 4).toNat = half - 4 := by omega
          simp only [true_and] at good_iff
          rw [returns.wanted_iff]
          simp only [Bool.true_eq_false, false_or]
          rw [← good_iff]
          cases final with
          | compacted copied start good =>
              simp only [space, List.length_singleton] at good
              exact iff_of_true (copied.compacted whole rfl rfl start) good
          | failed intact =>
              simp only [space, List.length_singleton] at intact
              exact intact

end

/-- A tag and two texts, the last one in a chunk of its own. -/
def twoChunks : Store where
  code p :=
    if p = ⟨0, 0⟩ then .tag 5
    else if p = ⟨0, 4⟩ then .command (.charstr 7)
    else if p = ⟨0, 8⟩ then .jump ⟨1, 0⟩
    else if p = ⟨1, 0⟩ then .command (.charstr 8)
    else .retsym
  fresh := 2
  live := [1, 0]
  freed := []
  head := ⟨0, 0⟩
  chunks := [1, 0]
  datasize := 12
  physicalsize := 24
  tailptr := ⟨1, 4⟩
  tailend := ⟨1, 12⟩
  hash t := if t = 5 then some ⟨0, 0⟩ else none

def twoChunksItems : List (Pos × Item) :=
  [(⟨0, 0⟩, .tag 5), (⟨0, 4⟩, .command (.charstr 7)), (⟨0, 8⟩, .jump ⟨1, 0⟩),
    (⟨1, 0⟩, .command (.charstr 8))]

theorem twoChunks_whole : Whole 12 twoChunks twoChunksItems where
  trail := ⟨⟨1, 4⟩, .step (q := ⟨0, 4⟩) rfl (.step (q := ⟨0, 8⟩) rfl
    (.step (q := ⟨1, 0⟩) rfl (.step (q := ⟨1, 4⟩) rfl (.last rfl)))), by decide⟩
  inside p i := by
    intro listed
    simp only [twoChunksItems, List.mem_cons, Prod.mk.injEq, List.not_mem_nil, or_false] at listed
    rcases listed with ⟨rfl, -⟩ | ⟨rfl, -⟩ | ⟨rfl, -⟩ | ⟨rfl, -⟩ <;> decide
  hash t p := by
    simp only [twoChunks, twoChunksItems]
    split
    · next five => simp [five, eq_comm]
    · next other => simp [other]
  some p i := by
    intro listed
    simp only [twoChunksItems, List.mem_cons, Prod.mk.injEq, List.not_mem_nil, or_false] at listed
    rcases listed with ⟨-, rfl⟩ | ⟨-, rfl⟩ | ⟨-, rfl⟩ | ⟨-, rfl⟩ <;> decide
  short := by decide
  room := by decide
  once := by decide
  live := by decide
  alive := by decide
  old := by decide

theorem compactify_iff_twoChunks :
    (∃ r, Returns (fun _ => true) 12 twoChunks r ∧ Wanted 12 twoChunks twoChunksItems r) ↔
      true = false ∨ true = false ∨
        (∀ j < (pages 12 (12 - 4) (contents twoChunksItems)).2.length, true = true ∧ true = true) ∨
        ¬(true = true ∧ true = true) ∧
          ∀ i ∈ (pages 12 (12 - 4) (contents twoChunksItems)).1, i.isTag = false :=
  compactify_iff twoChunks_whole fun _ => true

/-- Without memory for the second chunk the tag is found in a chunk that has been freed. -/
theorem tag_in_freed_chunk : ∃ s',
    (∀ fuel, compactify (fun k => decide (k < 2)) 12 (fuel + 4) twoChunks = some (.failed s')) ∧
      s'.hash 5 = some ⟨2, 0⟩ ∧ 2 ∉ s'.live ∧ ¬Intact twoChunks s' := by
  refine ⟨_, fun _ => rfl, rfl, by decide, fun intact => ?_⟩
  have same := congrFun intact.hash 5
  exact absurd same (by decide)

end Irix.Gl2
