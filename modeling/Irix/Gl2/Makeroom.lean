import Irix.Lib.Run
import Mathlib.Logic.Function.Basic
import Mathlib.Tactic.Common

/-! # Making room in an object

An object is a chain of chunks, each of so many bytes as `chunksize` was told. A command goes in
at the edit position, in front of what ends the chunk, and where it does not fit there a new chunk
is linked in. Of a new chunk it is not asked whether it is large enough.
-/

namespace Irix.Gl2

open Function

/-- A short in a chunk. -/
structure Pos where
  chunk : Nat
  off : Nat
  deriving DecidableEq

def Pos.add (p : Pos) (n : Nat) : Pos := { p with off := p.off + n }

/-- A long of an object. -/
inductive Word where
  | jump
  | retsym
  | tag
  /-- an address in a chunk -/
  | place (p : Pos)
  | long (n : Int)

/-- A short of an object: one half of a long, or a short of its own. -/
inductive Short where
  | high (w : Word)
  | low (w : Word)
  | short (n : Int)

/-- The open object and where it is edited. -/
structure Editor where
  /-- `gl_objchunksize` -/
  size : Nat
  /-- the addresses of the chunks -/
  base : Nat → Int
  chunks : Nat
  mem : Pos → Short
  currentpos : Pos
  currentend : Pos
  tailptr : Pos
  tailend : Pos
  physicalsize : Nat
  datasize : Nat
  tags : List Int
  /-- the hash table's entries for the tags of this object -/
  hash : Int → Option Pos

inductive Move where
  /-- a command is compiled; `memory` says if there is any for a chunk -/
  | insert (command : List Short) (memory : Bool)
  /-- `maketag`, with memory for a chunk, for the hash table, for the list of tags and for a
      chunk in `gl_addtag` -/
  | maketag (tag : Int) (chunk hash cons again : Bool)

namespace Editor

variable (s : Editor)

/-- `gl_objchunksize>>1` -/
def half : Nat := s.size / 2

def address (p : Pos) : Int := s.base p.chunk + 2 * p.off

/-- Write so many bytes at a place in a chunk, if they are in it. -/
def guard (p : Pos) (bytes : Nat) : Option Unit :=
  if p.chunk < s.chunks ∧ 2 * p.off + bytes ≤ s.size then some () else none

def set (p : Pos) (a b : Short) : Editor := { s with mem := update (update s.mem p a) (p.add 1) b }

/-- `*(long *)p = w` -/
def putLong (p : Pos) (w : Word) : Option Editor := do
  s.guard p 4
  some (s.set p (.high w) (.low w))

/-- `*(long *)p = *(long *)q` -/
def copyLong (p q : Pos) : Option Editor := do
  s.guard p 4
  some (s.set p (s.mem q) (s.mem (q.add 1)))

def putShort (p : Pos) (a : Short) : Option Editor := do
  s.guard p 2
  some { s with mem := update s.mem p a }

/-- `(n<<1) <= (long)gl_currentend - (long)gl_currentpos - 8` -/
def Grants (n : Nat) : Prop :=
  Int.bmod (2 * n) 4294967296 ≤ s.address s.currentend - s.address s.currentpos - 8

instance (n : Nat) : Decidable (s.Grants n) := inferInstanceAs (Decidable (_ ≤ _))

def addchunk : Editor :=
  { s with chunks := s.chunks + 1, physicalsize := s.physicalsize + s.half }

/-- With the result goes the object as it is then. -/
def makeroom (n : Nat) (memory : Bool) : Option (Bool × Editor) :=
  if s.Grants n then some (true, s)
  else if memory = false then some (false, s)
  else do
    let new : Pos := ⟨s.chunks, 0⟩
    let s := s.addchunk
    let s :=
      if s.currentpos = s.tailptr then { s with tailptr := new, tailend := new.add s.half } else s
    let s ← s.copyLong new s.currentpos
    let s ← s.copyLong (new.add 2) (s.currentpos.add 2)
    let s ← s.putLong s.currentpos .jump
    let s := { s with currentpos := s.currentpos.add 2 }
    let s ← s.putLong s.currentpos (.place new)
    some (true, { s with currentpos := new, currentend := new.add s.half })

def insertspace (n : Nat) (memory : Bool) : Option (Bool × Editor) := do
  let (room, s) ← s.makeroom n memory
  if room then
    let s := { s with datasize := s.datasize + n }
    let s := if s.currentpos = s.tailptr then { s with tailptr := s.tailptr.add n } else s
    let s ← s.copyLong (s.currentpos.add (n + 2)) (s.currentpos.add 2)
    let s ← s.copyLong (s.currentpos.add n) s.currentpos
    some (true, s)
  else some (false, s)

/-- A command is written at the edit position, short by short. -/
def compile (s : Editor) : List Short → Option Editor
  | [] => some s
  | a :: command => do
      let s ← s.putShort s.currentpos a
      compile { s with currentpos := s.currentpos.add 1 } command

def insert (command : List Short) (memory : Bool) : Option Editor := do
  let (room, s) ← s.insertspace command.length memory
  if room then s.compile command else some s

def addtag (n : Int) (memory : Bool) : Option (Bool × Editor) := do
  let (room, s) ← s.makeroom 4 memory
  if room then
    let s := if s.currentpos = s.tailptr then { s with tailptr := s.tailptr.add 4 } else s
    let s ← s.copyLong (s.currentpos.add 6) (s.currentpos.add 2)
    let s ← s.copyLong (s.currentpos.add 4) s.currentpos
    let s ← s.putLong s.currentpos .tag
    let s := { s with currentpos := s.currentpos.add 2 }
    let s ← s.putLong s.currentpos (.long n)
    some (true, { s with currentpos := s.currentpos.add 2 })
  else some (false, s)

/-- The tags below zero are `STARTTAG` and `ENDTAG`, and refused. -/
def maketag (tag : Int) (chunk hash cons again : Bool) : Option Editor :=
  if tag < 0 then some s
  else if s.hash tag ≠ none then some s
  else do
    let (room, s) ← s.makeroom 4 chunk
    if room ∧ hash then
      if cons then
        let s := { s with
          hash := update s.hash tag (some s.currentpos)
          tags := tag :: s.tags
          datasize := s.datasize + 4 }
        let (_, s) ← s.addtag tag again
        some s
      else some s
    else some s

def step : Move → Option Editor
  | .insert command memory => s.insert command memory
  | .maketag tag chunk hash cons again => s.maketag tag chunk hash cons again

/-- `gl_makeobject`, with the memory as it is found. -/
def makeobject (size : Nat) (base : Nat → Int) (mem : Pos → Short) : Option Editor :=
  putLong
    { size := size, base := base, chunks := 1, mem := mem
      currentpos := ⟨0, 0⟩, currentend := ⟨0, size / 2⟩
      tailptr := ⟨0, 0⟩, tailend := ⟨0, size / 2⟩
      physicalsize := size / 2, datasize := 0, tags := [], hash := fun _ => none } ⟨0, 0⟩ .retsym

/-! ## What is expected -/

def Holds (p : Pos) (w : Word) : Prop := s.mem p = .high w ∧ s.mem (p.add 1) = .low w

/-- The object goes on behind the edit position: it ends there, or it goes on in a chunk. -/
def Ready : Prop :=
  (s.Holds s.currentpos .retsym ∧ s.currentpos.off + 2 ≤ s.half) ∨
    ((s.Holds s.currentpos .jump ∧ ∃ p, s.Holds (s.currentpos.add 2) (.place p) ∧ p.chunk < s.chunks) ∧
      s.currentpos.off + 4 ≤ s.half)

end Editor

/-- The shorts that a move asks for. -/
def Move.length : Move → Nat
  | .insert command _ => command.length
  | .maketag .. => 4

/-- What is expected of a move: the object goes on behind the edit position, and where no chunk can
    hold the command nothing has changed. -/
structure Proper (s : Editor) (m : Move) (s' : Editor) : Prop where
  ready : s'.Ready
  refused : s.half < m.length + 4 → s' = s

def Steady : Editor → List Move → Prop := Lib.Run.Steady Editor.step Proper

/-- Where the command is granted room, there is some, in this chunk or in the new one. -/
def Fits (s : Editor) (n : Nat) (memory : Bool) : Prop :=
  if s.Grants n then s.currentpos.off + n + 4 ≤ s.half else memory = true → n + 4 ≤ s.half

def Allowed (s : Editor) : Move → Prop
  | .insert command memory => Fits s command.length memory
  | .maketag tag chunk .. => 0 ≤ tag → s.hash tag = none → Fits s 4 chunk

instance (s : Editor) (n : Nat) (memory : Bool) : Decidable (Fits s n memory) :=
  inferInstanceAs (Decidable (if s.Grants n then _ ≤ _ else _ → _))

instance (s : Editor) : ∀ m, Decidable (Allowed s m)
  | .insert _ _ => inferInstanceAs (Decidable (Fits s _ _))
  | .maketag tag _ _ _ _ => inferInstanceAs (Decidable (0 ≤ tag → s.hash tag = none → Fits s 4 _))

def AllAllowed : Editor → List Move → Prop := Lib.Run.Permitted Editor.step Allowed

instance (s : Editor) (moves : List Move) : Decidable (AllAllowed s moves) :=
  Lib.Run.Permitted.decidable Editor.step Allowed s moves

/-- The open object while it is edited. -/
structure Sound (s : Editor) : Prop where
  here : s.currentpos.chunk < s.chunks
  last : s.currentend = ⟨s.currentpos.chunk, s.half⟩
  ready : s.Ready
  roomy : 4 ≤ s.half → s.currentpos.off + 4 ≤ s.half

/-! ## Writing -/

section

variable {s s' : Editor} {p q : Pos} {w : Word} {n m k : Nat} {a b : Short} {memory : Bool}

@[simp] theorem add_chunk (p : Pos) (n : Nat) : (p.add n).chunk = p.chunk := rfl

@[simp] theorem add_off (p : Pos) (n : Nat) : (p.add n).off = p.off + n := rfl

@[simp] theorem add_add (p : Pos) (n m : Nat) : (p.add n).add m = p.add (n + m) := by
  simp [Pos.add, Nat.add_assoc]

@[simp] theorem add_zero (p : Pos) : p.add 0 = p := rfl

@[simp] theorem add_inj : p.add n = p.add m ↔ n = m := by
  simp [Pos.add]

@[simp] theorem add_eq_self : p.add n = p ↔ n = 0 := add_inj (m := 0)

@[simp] theorem self_eq_add : p = p.add n ↔ n = 0 := eq_comm.trans add_eq_self

theorem ne_of_chunk (other : p.chunk ≠ q.chunk) : p ≠ q := fun same => other (congrArg Pos.chunk same)

theorem half_bytes (s : Editor) : 2 * n + 4 ≤ s.size ↔ n + 2 ≤ s.half := by
  unfold Editor.half
  omega

theorem guard_eq (p : Pos) (bytes : Nat) :
    s.guard p bytes = some () ↔ p.chunk < s.chunks ∧ 2 * p.off + bytes ≤ s.size := by
  unfold Editor.guard
  split <;> simp_all

/-- A long is written where it lies in its chunk, and nowhere else. -/
theorem putLong_eq (p : Pos) (w : Word) (here : p.chunk < s.chunks) :
    s.putLong p w = if p.off + 2 ≤ s.half then some (s.set p (.high w) (.low w)) else none := by
  simp only [Editor.putLong, Editor.guard, here, true_and, half_bytes]
  split <;> rfl

theorem copyLong_eq (p q : Pos) (here : p.chunk < s.chunks) :
    s.copyLong p q = if p.off + 2 ≤ s.half then some (s.set p (s.mem q) (s.mem (q.add 1))) else none := by
  simp only [Editor.copyLong, Editor.guard, here, true_and, half_bytes]
  split <;> rfl

theorem set_mem (p q : Pos) (a b : Short) :
    (s.set p a b).mem q = if q = p.add 1 then b else if q = p then a else s.mem q := by
  simp only [Editor.set, update_apply]

@[simp] theorem set_chunks : (s.set p a b).chunks = s.chunks := rfl

@[simp] theorem set_half : (s.set p a b).half = s.half := rfl

@[simp] theorem set_currentpos : (s.set p a b).currentpos = s.currentpos := rfl

/-- What ends the chunk is moved behind the room that is made. -/
structure Moved (n : Nat) (s s' : Editor) : Prop where
  same : s' = { s with mem := s'.mem }
  moved : ∀ k, k < 4 → s'.mem (s.currentpos.add (n + k)) = s.mem (s.currentpos.add k)

theorem copyEnd (here : s.currentpos.chunk < s.chunks) (fits : s.currentpos.off + n + 4 ≤ s.half) :
    ∃ s₁ s₂, s.copyLong (s.currentpos.add (n + 2)) (s.currentpos.add 2) = some s₁ ∧
      s₁.copyLong (s₁.currentpos.add n) s₁.currentpos = some s₂ ∧ Moved n s s₂ := by
  have first : (s.currentpos.add (n + 2)).off + 2 ≤ s.half := by
    rw [add_off]
    omega
  have second : (s.currentpos.add n).off + 2 ≤ s.half := by
    rw [add_off]
    omega
  have one := (copyLong_eq (s.currentpos.add (n + 2)) (s.currentpos.add 2) here).trans (if_pos first)
  generalize eq : s.set (s.currentpos.add (n + 2)) (s.mem (s.currentpos.add 2))
    (s.mem ((s.currentpos.add 2).add 1)) = s₁ at one
  have pos : s₁.currentpos = s.currentpos := by rw [← eq]; rfl
  have two : s₁.copyLong (s₁.currentpos.add n) s₁.currentpos =
      some (s₁.set (s₁.currentpos.add n) (s₁.mem s₁.currentpos) (s₁.mem (s₁.currentpos.add 1))) := by
    rw [copyLong_eq _ _ (by rw [← eq]; exact here), if_pos (by rw [← eq]; exact second)]
  refine ⟨s₁, _, one, two, by rw [← eq]; rfl, fun k less => ?_⟩
  rw [pos, ← eq]
  simp only [set_mem, add_add, add_inj]
  match k with
  | 0 => simp
  | 1 => simp
  | 2 => simp
  | 3 => simp
  | k + 4 => omega

theorem copyEnd_short (here : s.currentpos.chunk < s.chunks)
    (short : ¬s.currentpos.off + n + 4 ≤ s.half) :
    s.copyLong (s.currentpos.add (n + 2)) (s.currentpos.add 2) = none := by
  rw [copyLong_eq _ _ (by exact here), if_neg]
  rw [add_off]
  omega

/-- A command is written over nothing that is behind it. -/
theorem compile_spec {command : List Short} (here : s.currentpos.chunk < s.chunks)
    (fits : s.currentpos.off + command.length ≤ s.half) :
    ∃ s', s.compile command = some s' ∧
      s' = { s with mem := s'.mem, currentpos := s.currentpos.add command.length } ∧
      ∀ k, command.length ≤ k → s'.mem (s.currentpos.add k) = s.mem (s.currentpos.add k) := by
  induction command generalizing s with
  | nil => exact ⟨s, rfl, rfl, fun _ _ => rfl⟩
  | cons a command ih =>
      rw [List.length_cons] at fits
      have inside : s.guard s.currentpos 2 = some () := by
        rw [guard_eq]
        refine ⟨here, ?_⟩
        unfold Editor.half at fits
        omega
      obtain ⟨s', done, same, kept⟩ := @ih
        { s with mem := update s.mem s.currentpos a, currentpos := s.currentpos.add 1 } here
        (by simp only [add_off]; exact Nat.le_trans (by omega) fits)
      refine ⟨s', ?_, ?_, fun k behind => ?_⟩
      · simp only [Editor.compile, Editor.putShort, inside, Option.bind_eq_bind, Option.bind_some]
        exact done
      · rw [same]
        simp [Nat.add_comm]
      · have later := kept (k - 1) (by simp only [List.length_cons] at behind; omega)
        have next : 1 + (k - 1) = k := by simp only [List.length_cons] at behind; omega
        have other : s.currentpos.add k ≠ s.currentpos := by
          simp only [List.length_cons] at behind
          rw [ne_eq, add_eq_self]
          omega
        simp only [add_add, next, update_of_ne other] at later
        exact later

/-! ## Room -/

theorem Sound.distance (sound : Sound s) :
    s.address s.currentend - s.address s.currentpos - 8 =
      2 * (s.half : Int) - 2 * (s.currentpos.off : Int) - 8 := by
  rw [sound.last]
  simp only [Editor.address]
  omega

/-- There is room where the test says so, and the other way round for what is not too long. -/
theorem Sound.grants_iff (sound : Sound s) (short : n < 1073741824) :
    s.Grants n ↔ s.currentpos.off + n + 4 ≤ s.half := by
  have whole : Int.bmod (2 * n) 4294967296 = 2 * n := Int.bmod_eq_of_le (by omega) (by omega)
  rw [Editor.Grants, sound.distance, whole]
  omega

/-- The object goes on where its end was moved to. -/
theorem ready_moved (ready : s.Ready) (more : s.chunks ≤ s'.chunks)
    (moved : ∀ k, k < 4 → s'.mem (s'.currentpos.add k) = s.mem (s.currentpos.add k))
    (room : s'.currentpos.off + 4 ≤ s'.half) : s'.Ready := by
  have zero := moved 0 (by omega)
  have one := moved 1 (by omega)
  have two := moved 2 (by omega)
  have three := moved 3 (by omega)
  simp only [add_zero] at zero
  rcases ready with ⟨⟨high, low⟩, -⟩ | ⟨⟨⟨high, low⟩, p, ⟨high', low'⟩, inside⟩, -⟩
  · exact Or.inl ⟨⟨zero.trans high, one.trans low⟩, by omega⟩
  · exact Or.inr ⟨⟨⟨zero.trans high, one.trans low⟩, p, ⟨two.trans high', three.trans low'⟩, by omega⟩,
      room⟩

/-- The edit position is at the beginning of a new chunk. -/
structure Fresh (s s' : Editor) : Prop where
  size : s'.size = s.size
  chunks : s'.chunks = s.chunks + 1
  hash : s'.hash = s.hash
  currentpos : s'.currentpos = ⟨s.chunks, 0⟩
  currentend : s'.currentend = ⟨s.chunks, s.half⟩
  moved : ∀ k, k < 4 → s'.mem ⟨s.chunks, k⟩ = s.mem (s.currentpos.add k)

theorem Fresh.half (fresh : Fresh s s') : s'.half = s.half := by
  rw [Editor.half, fresh.size, Editor.half]

theorem Fresh.sound (fresh : Fresh s s') (ready : s.Ready) (four : 4 ≤ s.half) : Sound s' where
  here := by
    rw [fresh.currentpos, fresh.chunks]
    exact Nat.lt_succ_self _
  last := by rw [fresh.currentend, fresh.currentpos, fresh.half]
  ready := by
    refine ready_moved ready (by rw [fresh.chunks]; omega) (fun k less => ?_) ?_
    · rw [fresh.currentpos, ← fresh.moved k less]
      simp [Pos.add]
    · rw [fresh.currentpos, fresh.half]
      simpa using four
  roomy _ := by
    rw [fresh.currentpos, fresh.half]
    simpa using four

theorem makeroom_granted (grants : s.Grants n) : s.makeroom n memory = some (true, s) := if_pos grants

theorem makeroom_refused (full : ¬s.Grants n) : s.makeroom n false = some (false, s) := by
  rw [Editor.makeroom, if_neg full, if_pos rfl]

/-- What `gl_makeroom` does with a new chunk. -/
theorem makeroom_chunk (full : ¬s.Grants n) :
    ∃ t : Editor, t.currentpos = s.currentpos ∧ t.chunks = s.chunks + 1 ∧ t.size = s.size ∧
      t.mem = s.mem ∧ t.hash = s.hash ∧
      s.makeroom n true = (do
        let t ← t.copyLong ⟨s.chunks, 0⟩ t.currentpos
        let t ← t.copyLong ⟨s.chunks, 2⟩ (t.currentpos.add 2)
        let t ← t.putLong t.currentpos .jump
        let t := { t with currentpos := t.currentpos.add 2 }
        let t ← t.putLong t.currentpos (.place ⟨s.chunks, 0⟩)
        some (true, { t with currentpos := ⟨s.chunks, 0⟩, currentend := ⟨s.chunks, t.half⟩ })) := by
  refine ⟨if s.currentpos = s.tailptr then
      { s.addchunk with tailptr := ⟨s.chunks, 0⟩, tailend := ⟨s.chunks, s.half⟩ } else s.addchunk,
    ?_, ?_, ?_, ?_, ?_, ?_⟩
  case refine_6 =>
    rw [Editor.makeroom, if_neg full, if_neg (by decide)]
    simp [Pos.add, Editor.addchunk, Editor.half]
  all_goals
    split <;> rfl

theorem makeroom_fresh (sound : Sound s) (full : ¬s.Grants n) (four : 4 ≤ s.half) :
    ∃ s', s.makeroom n true = some (true, s') ∧ Fresh s s' := by
  obtain ⟨t, pos, chunks, size, mem, hash, run⟩ := makeroom_chunk full
  have half : t.half = s.half := by rw [Editor.half, size, Editor.half]
  have new : s.chunks < t.chunks := by omega
  have old : s.currentpos.chunk < t.chunks := Nat.lt_trans sound.here new
  have room := sound.roomy four
  have apart : s.currentpos.chunk ≠ s.chunks := Nat.ne_of_lt sound.here
  have first : (⟨s.chunks, 0⟩ : Pos).off + 2 ≤ t.half := by
    rw [half]
    exact Nat.le_trans (by simp) four
  have second : (⟨s.chunks, 2⟩ : Pos).off + 2 ≤ t.half := by
    rw [half]
    exact four
  have third : s.currentpos.off + 2 ≤ t.half := by omega
  have fourth : (s.currentpos.add 2).off + 2 ≤ t.half := by
    rw [add_off]
    omega
  rw [run, copyLong_eq _ _ new, if_pos first, Option.bind_eq_bind, Option.bind_some,
    copyLong_eq _ _ new, if_pos (by exact second), Option.bind_some]
  simp only [set_currentpos, pos]
  rw [putLong_eq _ _ (by exact old), if_pos (by exact third), Option.bind_some]
  simp only [set_currentpos, pos]
  rw [putLong_eq _ _ (by exact old), if_pos (by exact fourth), Option.bind_some]
  refine ⟨_, rfl, size, chunks, hash, rfl, congrArg (Pos.mk s.chunks) half, fun k less => ?_⟩
  have other : ∀ i j, (⟨s.chunks, i⟩ : Pos) ≠ s.currentpos.add j := fun i j =>
    ne_of_chunk (by exact apart.symm)
  have other' : ∀ i, (⟨s.chunks, i⟩ : Pos) ≠ s.currentpos := fun i => other i 0
  simp only [set_mem, mem, add_add, other, other', if_false]
  match k with
  | 0 => simp [Pos.add]
  | 1 => simp [Pos.add]
  | 2 => simp [Pos.add, ne_of_chunk, apart]
  | 3 => simp [Pos.add, ne_of_chunk, apart]
  | k + 4 => omega

/-- The end of the old chunk does not fit into a new one. -/
theorem makeroom_short (full : ¬s.Grants n) (short : ¬4 ≤ s.half) : s.makeroom n true = none := by
  obtain ⟨t, pos, chunks, size, mem, hash, run⟩ := makeroom_chunk full
  have half : t.half = s.half := by rw [Editor.half, size, Editor.half]
  have new : s.chunks < t.chunks := by omega
  rw [run, copyLong_eq _ _ new]
  split
  · rw [Option.bind_eq_bind, Option.bind_some, copyLong_eq _ _ new, if_neg]
    · rfl
    · rw [set_half, half]
      omega
  · rfl

/-- What is granted where there is room: this much of it, in an object that can still be edited. -/
structure Granted (n : Nat) (s s' : Editor) : Prop where
  sound : Sound s'
  half : s'.half = s.half
  hash : s'.hash = s.hash
  room : s'.currentpos.off + n + 4 ≤ s.half

theorem makeroom_spec (sound : Sound s) (fits : Fits s n memory) :
    (s.makeroom n memory = some (false, s) ∧ ¬s.Grants n ∧ memory = false) ∨
      ∃ s', s.makeroom n memory = some (true, s') ∧ Granted n s s' := by
  unfold Fits at fits
  split at fits
  · next grants => exact Or.inr ⟨s, makeroom_granted grants, sound, rfl, rfl, fits⟩
  · next full =>
      cases memory with
      | false => exact Or.inl ⟨makeroom_refused full, full, rfl⟩
      | true =>
          have enough := fits rfl
          obtain ⟨s', done, fresh⟩ := makeroom_fresh sound full (by omega)
          refine Or.inr ⟨s', done, fresh.sound sound.ready (by omega), fresh.half, fresh.hash, ?_⟩
          rw [fresh.currentpos]
          simpa using enough

/-- Where there is no such room the end of the chunk is written behind it. -/
theorem makeroom_overrun (sound : Sound s) (short : ¬Fits s n memory) :
    s.makeroom n memory = none ∨
      ∃ s', s.makeroom n memory = some (true, s') ∧ s'.currentpos.chunk < s'.chunks ∧
        ¬s'.currentpos.off + n + 4 ≤ s'.half := by
  unfold Fits at short
  split at short
  · next grants => exact Or.inr ⟨s, makeroom_granted grants, sound.here, short⟩
  · next full =>
      cases memory with
      | false => exact absurd (fun not => by cases not) short
      | true =>
          by_cases four : 4 ≤ s.half
          · obtain ⟨s', done, fresh⟩ := makeroom_fresh sound full four
            have here := (fresh.sound sound.ready four).here
            refine Or.inr ⟨s', done, here, ?_⟩
            rw [fresh.currentpos, fresh.half]
            simpa using short
          · exact Or.inl (makeroom_short full four)

/-- The counts and the last position do not matter for the rest. -/
structure Counted (s s' : Editor) : Prop where
  size : s'.size = s.size
  chunks : s'.chunks = s.chunks
  mem : s'.mem = s.mem
  currentpos : s'.currentpos = s.currentpos
  currentend : s'.currentend = s.currentend

theorem Counted.half (counted : Counted s s') : s'.half = s.half := by
  rw [Editor.half, counted.size, Editor.half]

theorem Counted.sound (counted : Counted s s') (sound : Sound s) : Sound s' where
  here := by
    rw [counted.currentpos, counted.chunks]
    exact sound.here
  last := by
    rw [counted.currentpos, counted.currentend, counted.half]
    exact sound.last
  ready := by
    have ready := sound.ready
    simp only [Editor.Ready, Editor.Holds] at ready ⊢
    rw [counted.mem, counted.currentpos, counted.half, counted.chunks]
    exact ready
  roomy := by
    rw [counted.currentpos, counted.half]
    exact sound.roomy

/-- The edit position went on, and what ended the chunk is behind it. -/
theorem sound_moved (sound : Sound s) (size : s'.size = s.size) (chunks : s'.chunks = s.chunks)
    (pos : s'.currentpos = s.currentpos.add n) (last : s'.currentend = s.currentend)
    (moved : ∀ k, k < 4 → s'.mem (s.currentpos.add (n + k)) = s.mem (s.currentpos.add k))
    (room : s.currentpos.off + n + 4 ≤ s.half) : Sound s' := by
  have half : s'.half = s.half := by rw [Editor.half, size, Editor.half]
  have room' : s'.currentpos.off + 4 ≤ s'.half := by
    rw [pos, half, add_off]
    exact room
  constructor
  case here =>
    rw [pos, chunks]
    exact sound.here
  case last =>
    rw [pos, half, last]
    exact sound.last
  case ready =>
    refine ready_moved sound.ready (Nat.le_of_eq chunks.symm) (fun k less => ?_) room'
    rw [pos, add_add]
    exact moved k less
  case roomy => exact fun _ => room'

theorem insert_spec {command : List Short} (sound : Sound s) (fits : Fits s command.length memory) :
    ∃ s', s.insert command memory = some s' ∧ Sound s' ∧
      (s.half < command.length + 4 → s' = s) := by
  rcases makeroom_spec sound fits with ⟨refused, -, -⟩ | ⟨s₁, done, granted⟩
  · refine ⟨s, ?_, sound, fun _ => rfl⟩
    simp [Editor.insert, Editor.insertspace, refused]
  · have room := granted.room
    have counted : ∃ t, (if s₁.currentpos = s₁.tailptr then
        { s₁ with datasize := s₁.datasize + command.length
                  tailptr := s₁.tailptr.add command.length }
        else { s₁ with datasize := s₁.datasize + command.length }) = t ∧ Counted s₁ t := by
      refine ⟨_, rfl, ?_⟩
      split <;> exact ⟨rfl, rfl, rfl, rfl, rfl⟩
    obtain ⟨t, eq, counted⟩ := counted
    have soundT := counted.sound granted.sound
    have half := counted.half.trans granted.half
    obtain ⟨t₁, t₂, first, second, same, moved⟩ := @copyEnd t command.length soundT.here (by
      rw [counted.currentpos, half]
      exact room)
    obtain ⟨s', compiled, same', kept⟩ := @compile_spec t₂ command (by rw [same]; exact soundT.here) (by
      have pos : t₂.currentpos = s₁.currentpos := by rw [same]; exact counted.currentpos
      have half' : t₂.half = s.half := by rw [same]; exact half
      rw [pos, half']
      omega)
    refine ⟨s', ?_, ?_, fun short => by omega⟩
    · simp [Editor.insert, Editor.insertspace, done, eq, first, second, compiled]
    · refine sound_moved soundT (by rw [same', same]) (by rw [same', same]) (by rw [same', same])
        (by rw [same', same]) (fun k less => ?_) (by rw [counted.currentpos, half]; exact room)
      have pos : t₂.currentpos = t.currentpos := by rw [same]
      have behind := kept (command.length + k) (Nat.le_add_right ..)
      rw [pos] at behind
      exact behind.trans (moved k less)

/-- Nothing is inserted where there is no room that is granted. -/
theorem insert_overrun {command : List Short} (sound : Sound s)
    (short : ¬Fits s command.length memory) : s.insert command memory = none := by
  rcases makeroom_overrun sound short with none | ⟨s₁, done, here, short⟩
  · simp [Editor.insert, Editor.insertspace, none]
  · have counted : ∃ t, (if s₁.currentpos = s₁.tailptr then
        { s₁ with datasize := s₁.datasize + command.length
                  tailptr := s₁.tailptr.add command.length }
        else { s₁ with datasize := s₁.datasize + command.length }) = t ∧ Counted s₁ t := by
      refine ⟨_, rfl, ?_⟩
      split <;> exact ⟨rfl, rfl, rfl, rfl, rfl⟩
    obtain ⟨t, eq, counted⟩ := counted
    have overrun := @copyEnd_short t command.length
      (by rw [counted.currentpos, counted.chunks]; exact here)
      (by rw [counted.currentpos, counted.half]; exact short)
    simp [Editor.insert, Editor.insertspace, done, eq, overrun]

/-- The tag is written in front of what ended the chunk. -/
theorem tag_written (here : s.currentpos.chunk < s.chunks) (fits : s.currentpos.off + 4 ≤ s.half)
    (tag : Int) :
    ∃ s', (do
        let s ← s.putLong s.currentpos .tag
        let s := { s with currentpos := s.currentpos.add 2 }
        let s ← s.putLong s.currentpos (.long tag)
        some (true, { s with currentpos := s.currentpos.add 2 })) = some (true, s') ∧
      s' = { s with mem := s'.mem, currentpos := s.currentpos.add 4 } ∧
      ∀ k, 4 ≤ k → s'.mem (s.currentpos.add k) = s.mem (s.currentpos.add k) := by
  have second : (s.currentpos.add 2).off + 2 ≤ s.half := by
    rw [add_off]
    omega
  rw [putLong_eq _ _ here, if_pos (by omega), Option.bind_eq_bind, Option.bind_some]
  simp only [set_currentpos]
  rw [putLong_eq _ _ (by exact here), if_pos (by exact second), Option.bind_some]
  refine ⟨_, rfl, by simp [Editor.set], fun k behind => ?_⟩
  have apart : k ≠ 0 ∧ k ≠ 1 ∧ k ≠ 2 ∧ k ≠ 3 := by omega
  simp [set_mem, apart]

theorem addtag_spec (sound : Sound s) (fits : Fits s 4 memory) (tag : Int) :
    ∃ ok s', s.addtag tag memory = some (ok, s') ∧ Sound s' := by
  rcases makeroom_spec sound fits with ⟨refused, -, -⟩ | ⟨s₁, done, granted⟩
  · refine ⟨false, s, ?_, sound⟩
    simp [Editor.addtag, refused]
  · have room := granted.room
    obtain ⟨t, eq, counted⟩ : ∃ t, (if s₁.currentpos = s₁.tailptr then
        { s₁ with tailptr := s₁.tailptr.add 4 } else s₁) = t ∧ Counted s₁ t := by
      refine ⟨_, rfl, ?_⟩
      split <;> exact ⟨rfl, rfl, rfl, rfl, rfl⟩
    have soundT := counted.sound granted.sound
    have half := counted.half.trans granted.half
    have roomT : t.currentpos.off + 4 + 4 ≤ t.half := by
      rw [counted.currentpos, half]
      exact room
    obtain ⟨t₁, t₂, first, second, same, moved⟩ := @copyEnd t 4 soundT.here roomT
    have pos : t₂.currentpos = t.currentpos := by rw [same]
    have half' : t₂.half = t.half := by rw [same]; rfl
    obtain ⟨s', wrote, same', kept⟩ := @tag_written t₂ (by rw [same]; exact soundT.here)
      (by rw [pos, half']; omega) tag
    refine ⟨true, s', ?_, ?_⟩
    · simp only [Editor.addtag, done, Option.bind_eq_bind, Option.bind_some, if_true, eq, first, second]
      exact wrote
    · refine sound_moved soundT (by rw [same', same]) (by rw [same', same]) (by rw [same', same])
        (by rw [same', same]) (fun k less => ?_) roomT
      have behind := kept (4 + k) (Nat.le_add_right ..)
      rw [pos] at behind
      exact behind.trans (moved k less)

theorem addtag_overrun (sound : Sound s) (short : ¬Fits s 4 memory) (tag : Int) :
    s.addtag tag memory = none := by
  rcases makeroom_overrun sound short with none | ⟨s₁, done, here, short⟩
  · simp [Editor.addtag, none]
  · obtain ⟨t, eq, counted⟩ : ∃ t, (if s₁.currentpos = s₁.tailptr then
        { s₁ with tailptr := s₁.tailptr.add 4 } else s₁) = t ∧ Counted s₁ t := by
      refine ⟨_, rfl, ?_⟩
      split <;> exact ⟨rfl, rfl, rfl, rfl, rfl⟩
    have overrun := @copyEnd_short t 4
      (by rw [counted.currentpos, counted.chunks]; exact here)
      (by rw [counted.currentpos, counted.half]; exact short)
    simp only [Editor.addtag, done, Option.bind_eq_bind, Option.bind_some, if_true, eq]
    rw [show t.copyLong (t.currentpos.add 6) (t.currentpos.add 2) = none from overrun]
    rfl

theorem maketag_spec {tag : Int} {chunk hash cons again : Bool} (sound : Sound s)
    (allowed : 0 ≤ tag → s.hash tag = none → Fits s 4 chunk) :
    ∃ s', s.maketag tag chunk hash cons again = some s' ∧ Sound s' ∧ (s.half < 8 → s' = s) := by
  unfold Editor.maketag
  split
  · exact ⟨s, rfl, sound, fun _ => rfl⟩
  · next nonneg =>
      split
      · exact ⟨s, rfl, sound, fun _ => rfl⟩
      · next new =>
          rcases makeroom_spec sound (allowed (by omega) (by simpa using new)) with
            ⟨refused, -, -⟩ | ⟨s₁, done, granted⟩
          · exact ⟨s, by simp [refused], sound, fun _ => rfl⟩
          · have room := granted.room
            simp only [done, Option.bind_eq_bind, Option.bind_some]
            split
            · split
              · have counted : Counted s₁ { s₁ with
                    hash := update s₁.hash tag (some s₁.currentpos)
                    tags := tag :: s₁.tags
                    datasize := s₁.datasize + 4 } := ⟨rfl, rfl, rfl, rfl, rfl⟩
                have sound' := counted.sound granted.sound
                have room' := (sound'.grants_iff (n := 4) (by decide)).mpr
                  (by rw [counted.half, granted.half]; exact room)
                obtain ⟨ok, s', wrote, sound''⟩ := @addtag_spec _ again sound' (by
                  rw [Fits, if_pos room', counted.half, granted.half]
                  exact room) tag
                exact ⟨s', by rw [wrote]; rfl, sound'', fun _ => by omega⟩
              · exact ⟨s₁, rfl, granted.sound, fun _ => by omega⟩
            · exact ⟨s₁, rfl, granted.sound, fun _ => by omega⟩

/-- A tag that does not fit is written over the end of the new chunk, unless memory fails on the
    way: the object has the new chunk then. -/
theorem maketag_overrun {tag : Int} {chunk hash cons again : Bool} (sound : Sound s)
    (nonneg : 0 ≤ tag) (new : s.hash tag = none) (short : ¬Fits s 4 chunk) :
    s.half < 8 ∧ ∀ s', s.maketag tag chunk hash cons again = some s' → s' ≠ s := by
  have full : ¬s.Grants 4 := by
    intro grants
    have room := (sound.grants_iff (by decide)).mp grants
    exact short (by rw [Fits, if_pos grants]; exact room)
  rw [Fits, if_neg full] at short
  simp only [Classical.not_imp] at short
  obtain ⟨rfl, small⟩ := short
  refine ⟨by omega, ?_⟩
  rw [Editor.maketag, if_neg (by omega), if_neg (by simp [new])]
  by_cases four : 4 ≤ s.half
  · obtain ⟨s₁, done, fresh⟩ := makeroom_fresh sound full four
    have changed : s₁ ≠ s := by
      intro same
      have chunks := fresh.chunks
      rw [same] at chunks
      omega
    simp only [done, Option.bind_eq_bind, Option.bind_some]
    split
    · split
      · have counted : Counted s₁ { s₁ with
            hash := update s₁.hash tag (some s₁.currentpos)
            tags := tag :: s₁.tags
            datasize := s₁.datasize + 4 } := ⟨rfl, rfl, rfl, rfl, rfl⟩
        have sound' := counted.sound (fresh.sound sound.ready four)
        have full' := mt (sound'.grants_iff (n := 4) (by decide)).mp
          (by rw [counted.currentpos, counted.half, fresh.currentpos, fresh.half]; simpa using small)
        cases again with
        | false =>
            intro s' done same
            simp only [Editor.addtag, makeroom_refused full', Option.bind_eq_bind, Option.bind_some,
              Bool.false_eq_true, if_false, Option.some.injEq] at done
            have chunks := congrArg Editor.chunks (done.trans same)
            simp only [fresh.chunks] at chunks
            omega
        | true =>
            intro s' done
            rw [addtag_overrun sound' (by
              rw [Fits, if_neg full', counted.half, fresh.half]
              simpa using small) tag] at done
            cases done
      · rintro s' ⟨⟩
        exact changed
    · rintro s' ⟨⟩
      exact changed
  · rw [makeroom_short full four]
    rintro s' ⟨⟩

theorem step_proper (sound : Sound s) (m : Move) :
    (Allowed s m ↔ ∃ s', s.step m = some s' ∧ Proper s m s') ∧
      ∀ s', Allowed s m → s.step m = some s' → Sound s' := by
  cases m with
  | insert command memory =>
      simp only [Editor.step, Allowed]
      refine ⟨⟨fun fits => ?_, ?_⟩, fun s' fits done => ?_⟩
      · obtain ⟨s', done, sound', refused⟩ := insert_spec sound fits
        exact ⟨s', done, sound'.ready, refused⟩
      · rintro ⟨s', done, -⟩
        by_contra short
        rw [insert_overrun sound short] at done
        cases done
      · obtain ⟨s'', done', sound', -⟩ := insert_spec sound fits
        rw [done] at done'
        cases done'
        exact sound'
  | maketag tag chunk hash cons again =>
      simp only [Editor.step, Allowed]
      refine ⟨⟨fun fits => ?_, ?_⟩, fun s' fits done => ?_⟩
      · obtain ⟨s', done, sound', refused⟩ := maketag_spec sound fits
        exact ⟨s', done, sound'.ready, refused⟩
      · rintro ⟨s', done, proper⟩ nonneg new
        by_contra short
        obtain ⟨small, changed⟩ := maketag_overrun sound nonneg new short
        exact changed s' done (proper.refused small)
      · obtain ⟨s'', done', sound', -⟩ := maketag_spec sound fits
        rw [done] at done'
        cases done'
        exact sound'

/-- A run of insertions is as expected exactly where what is granted room has some. -/
theorem Sound.steady_iff (sound : Sound s) (moves : List Move) :
    Steady s moves ↔ AllAllowed s moves := by
  apply Lib.Run.steady_iff _ _ sound
  · exact fun s m sound => (step_proper sound m).1
  · exact fun s m s' sound allowed done => (step_proper sound m).2 s' allowed done

/-- The end of the object is written if the chunk has room for a long. -/
theorem makeobject_eq (size : Nat) (base : Nat → Int) (mem : Pos → Short) :
    if 4 ≤ size then ∃ s, Editor.makeobject size base mem = some s ∧ Sound s
    else Editor.makeobject size base mem = none := by
  unfold Editor.makeobject
  rw [putLong_eq _ _ (by exact Nat.zero_lt_one)]
  simp only [Editor.half]
  split
  · refine ⟨_, if_pos (by omega), Nat.zero_lt_one, rfl, Or.inl ⟨⟨?_, ?_⟩, ?_⟩, ?_⟩
    · simp [set_mem, Pos.add]
    · simp [set_mem]
    · show 0 + 2 ≤ size / 2
      omega
    · exact fun four => four
  · exact if_neg (by omega)

/-- With a new object and with one that is edited anywhere, a run of insertions is as expected
    exactly where what is granted room has some. -/
theorem insertions_iff (moves : List Move) :
    (∀ size base mem,
      (∃ s, Editor.makeobject size base mem = some s ∧ s.Ready ∧ Steady s moves) ↔
        4 ≤ size ∧ ∀ s, Editor.makeobject size base mem = some s → AllAllowed s moves) ∧
      ∀ s, Sound s → (Steady s moves ↔ AllAllowed s moves) := by
  refine ⟨fun size base mem => ?_, fun s sound => sound.steady_iff moves⟩
  have made := makeobject_eq size base mem
  by_cases large : 4 ≤ size
  · rw [if_pos large] at made
    obtain ⟨s, made, sound⟩ := made
    simp only [made, Option.some.injEq, exists_eq_left', forall_eq', large, true_and, sound.ready]
    exact sound.steady_iff moves
  · rw [if_neg large] at made
    simp [made, large]

/-- Commands and a tag, the last two commands of which go to new chunks. -/
def overflowing : List Move :=
  [.insert (List.replicate 10 (.short 7)) true, .insert (List.replicate 12 (.short 8)) true,
    .maketag 3 true true true true, .insert [.short 9] true]

theorem insertions_iff_overflowing :
    ∃ s, Editor.makeobject 40 (fun chunk => 1024 + 64 * chunk) (fun _ => .short 0) = some s ∧
      Sound s ∧ Steady s overflowing ∧
      (overflowing.foldlM Editor.step s).any (fun s => decide (s.currentpos.chunk = 2)) = true := by
  obtain ⟨s, made, sound⟩ :
      ∃ s, Editor.makeobject 40 (fun chunk => 1024 + 64 * chunk) (fun _ => .short 0) = some s ∧ Sound s :=
    makeobject_eq 40 _ _
  have run : (Editor.makeobject 40 (fun chunk => 1024 + 64 * chunk) fun _ => .short 0).all (fun s =>
      decide (AllAllowed s overflowing) &&
        (overflowing.foldlM Editor.step s).any fun s => decide (s.currentpos.chunk = 2)) = true := by
    decide +kernel
  rw [made, Option.all_some, Bool.and_eq_true, decide_eq_true_eq] at run
  exact ⟨s, made, sound, ((insertions_iff overflowing).2 s sound).mpr run.1, run.2⟩

/-- An object that has just been made, with chunks of the usual size. -/
theorem usual : ∃ s, Editor.makeobject 1020 (fun _ => 0) (fun _ => .short 0) = some s ∧ Sound s :=
  makeobject_eq 1020 _ _

/-- A command that leaves no room for a jump in a whole chunk is granted room. -/
theorem long_command : ∃ s, Editor.makeobject 1020 (fun _ => 0) (fun _ => .short 0) = some s ∧
    ¬Steady s [.insert (List.replicate 507 (.short 0)) true] := by
  obtain ⟨s, made, sound⟩ := usual
  refine ⟨s, made, ?_⟩
  rintro ⟨s', done, -⟩
  have half : s.half = 510 := by
    have size : s.size = 1020 := by
      unfold Editor.makeobject at made
      rw [putLong_eq _ _ (by exact Nat.zero_lt_one), if_pos (by decide)] at made
      cases made
      rfl
    rw [Editor.half, size]
  have short : ¬Fits s (List.replicate 507 (Short.short 0)).length true := by
    rw [List.length_replicate, Fits, half]
    split
    · omega
    · intro room
      exact absurd (room rfl) (by decide)
  rw [Editor.step, insert_overrun sound short] at done
  cases done

end

end Irix.Gl2
