import Irix.Lib.Run

/-! # Buffered reading and writing

`vread` and `vseek` on a local regular file, next to what `read` and `lseek` do there; and
`vwrite`, `vpad` and `vclose` on a local or remote one.
-/

namespace Irix.Inst

open Lib Lib.Run

/-- `buffsize` -/
def bsize : Nat := 4096

/-! ## Reading -/

structure Iob where
  /-- the `cnt` bytes from `buffp` on -/
  buffp : List UInt8
  pos : Nat
  eof : Bool
  /-- the offset of the descriptor in the file -/
  offset : Nat

inductive IobCall where
  | vread (n : Nat)
  | vseek (offset : Int) (whence : Nat)

inductive IobResult where
  | bytes (buff : List UInt8)
  | pos (at_ : Int)
  deriving DecidableEq

/-- Where a seek goes, if `whence` is valid. -/
def seekTarget (size at_ : Nat) (offset : Int) (whence : Nat) : Option Int :=
  if whence = 0 then some offset
  else if whence = 1 then some (offset + at_)
  else if whence = 2 then some (size + offset)
  else none

namespace Iob

variable (file : List UInt8)

/-- What `vopen` leaves. -/
def opened : Iob := ⟨[], 0, false, 0⟩

/-- `read (f, buff, bsize)`, at the offset of the descriptor. -/
def block (offset : Nat) : List UInt8 := (file.drop offset).take bsize

/-- The buffer is filled, and `Eof` set if it is not full. -/
def fill (p : Iob) : Iob :=
  let buff := block file p.offset
  { p with
    buffp := buff
    eof := p.eof || decide (buff.length < bsize)
    offset := p.offset + buff.length }

/-- `while (n)`: the bytes that are read. -/
def readLoop : (fuel : Nat) → Iob → (n : Nat) → Iob × List UInt8
  | 0, p, _ => (p, [])
  | fuel + 1, p, n =>
    if n = 0 then (p, [])
    else if p.buffp = [] ∧ p.eof = true then (p, [])
    else
      let p := if p.buffp = [] then p.fill file else p
      if p.buffp = [] then (p, [])
      else
        let b := min n p.buffp.length
        let (p', buff) := readLoop fuel { p with buffp := p.buffp.drop b } (n - b)
        (p', p.buffp.take b ++ buff)

def vread (p : Iob) (n : Nat) : Iob × List UInt8 :=
  let (p, buff) := p.readLoop file (n + 1) n
  ({ p with pos := p.pos + buff.length }, buff)

/-- A position before the file, from which nothing can be read, is not followed up. -/
def vseek (p : Iob) (offset : Int) (whence : Nat) : Iob × Int :=
  match seekTarget file.length p.pos offset whence with
  | none => (p, -1)
  | some (.negSucc _) => (p, -1)
  | some (.ofNat pos) =>
    let start := pos / bsize * bsize
    let buff := block file start
    let b := min (pos - start) buff.length
    ({ p with buffp := buff.drop b, pos := start + b, offset := start + buff.length }, start + b)

def step (p : Iob) : IobCall → Iob × IobResult
  | .vread n => let (p, buff) := p.vread file n; (p, .bytes buff)
  | .vseek offset whence => let (p, at_) := p.vseek file offset whence; (p, .pos at_)

end Iob

/-- `read` and `lseek`, from the offset of a descriptor. -/
def seekStep (file : List UInt8) (at_ : Nat) : IobCall → Nat × IobResult
  | .vread n =>
    let buff := (file.drop at_).take n
    (at_ + buff.length, .bytes buff)
  | .vseek offset whence =>
    match seekTarget file.length at_ offset whence with
    | some (.ofNat pos) => (pos, .pos pos)
    | _ => (at_, .pos (-1))

/-- What the calls return. -/
def results {σ : Type} (step : σ → IobCall → σ × IobResult) : σ → List IobCall → List IobResult
  | _, [] => []
  | s, call :: calls => (step s call).2 :: results step (step s call).1 calls

/-- A seek is to a place within the file. -/
def InFile (file : List UInt8) (at_ : Nat) : IobCall → Prop
  | .vread _ => True
  | .vseek offset whence =>
    ∀ pos ∈ seekTarget file.length at_ offset whence, 0 ≤ pos ∧ pos ≤ file.length

/-- `Eof` is not set, or what is buffered is enough, or the file is read to its end. -/
def Iob.Unspoilt (file : List UInt8) (p : Iob) : IobCall → Prop
  | .vread n => p.eof = false ∨ n ≤ p.buffp.length ∨ file.length ≤ p.offset
  | .vseek _ _ => True

namespace Iob

variable {file : List UInt8} {p : Iob} {at_ n fuel : Nat}

/-- The buffer has the bytes from a position on, up to the descriptor's offset. -/
structure At (file : List UInt8) (p : Iob) (at_ : Nat) : Prop where
  buffp : p.buffp = (file.drop at_).take p.buffp.length
  offset : p.offset = at_ + p.buffp.length
  inside : p.offset ≤ file.length

theorem length_block (file : List UInt8) (offset : Nat) :
    (block file offset).length = min bsize (file.length - offset) := by
  simp only [block, List.length_take, List.length_drop]

theorem At.fill (held : At file p at_) (empty : p.buffp = []) : At file (p.fill file) at_ := by
  have here : p.offset = at_ := by
    have := held.offset
    simp only [empty, List.length_nil] at this
    omega
  have inside := held.inside
  refine ⟨?_, ?_, ?_⟩
  · simp only [Iob.fill, block, here, List.take_eq_take_iff, List.length_take]
    omega
  · simp only [Iob.fill, here]
  · simp only [Iob.fill, length_block]
    omega

theorem At.drop {b : Nat} (held : At file p at_) (few : b ≤ p.buffp.length) :
    At file { p with buffp := p.buffp.drop b } (at_ + b) := by
  refine ⟨?_, ?_, held.inside⟩
  · simp only [List.length_drop]
    have := congrArg (List.drop b) held.buffp
    rw [List.drop_take, List.drop_drop] at this
    exact this
  · have := held.offset
    simp only [List.length_drop]
    omega

/-- What is buffered is the beginning of what follows. -/
theorem At.take (held : At file p at_) (few : n ≤ p.buffp.length) :
    p.buffp.take n = (file.drop at_).take n := by
  have cut := congrArg (List.take n) held.buffp
  rwa [List.take_take, Nat.min_eq_left few] at cut

/-- The bytes that are read are the next ones of the file. -/
theorem readLoop_bytes (held : At file p at_) (unspoilt : p.Unspoilt file (.vread n))
    (fueled : n < fuel) :
    (p.readLoop file fuel n).2 = (file.drop at_).take n ∧
      At file (p.readLoop file fuel n).1 (at_ + (p.readLoop file fuel n).2.length) ∧
      (p.readLoop file fuel n).1.pos = p.pos := by
  induction fuel generalizing p at_ n with
  | zero => cases fueled
  | succ fuel ih =>
      cases Decidable.em (n = 0) with
      | inl zero => simp [readLoop, zero, held]
      | inr more =>
          simp only [readLoop, more, if_false]
          split
          · next stop =>
              have last : file.length ≤ at_ := by
                have := held.offset
                simp only [Unspoilt, stop.2, Bool.true_eq_false, stop.1, List.length_nil,
                  false_or] at unspoilt this
                omega
              simp [List.drop_eq_nil_of_le last, held]
          · next go =>
              obtain ⟨q, filled⟩ : ∃ q, (if p.buffp = [] then p.fill file else p) = q := ⟨_, rfl⟩
              have heldQ : At file q at_ := by
                rw [← filled]
                split
                · next empty => exact held.fill empty
                · exact held
              have posQ : q.pos = p.pos := by
                rw [← filled]
                split <;> rfl
              rw [filled]
              split
              · next dry =>
                  have last : file.length ≤ at_ := by
                    have empty : p.buffp = [] := by
                      by_contra some
                      rw [if_neg some] at filled
                      exact some (filled ▸ dry)
                    rw [if_pos empty] at filled
                    have none : block file p.offset = [] := by
                      rw [← filled] at dry
                      exact dry
                    have length := length_block file p.offset
                    have offset := held.offset
                    simp only [none, empty, List.length_nil, bsize] at length offset
                    omega
                  simp [List.drop_eq_nil_of_le last, heldQ, posQ]
              · next some =>
                  have pos : 0 < q.buffp.length := List.length_pos_iff.mpr some
                  obtain ⟨b, least⟩ : ∃ b, min n q.buffp.length = b := ⟨_, rfl⟩
                  rw [least]
                  have rest : Unspoilt file { q with buffp := q.buffp.drop b } (.vread (n - b)) := by
                    simp only [Unspoilt, List.length_drop]
                    cases Decidable.em (n ≤ q.buffp.length) with
                    | inl enough => exact Or.inr (Or.inl (by omega))
                    | inr short =>
                        cases Decidable.em (p.buffp = []) with
                        | inr buffered =>
                            rw [if_neg buffered] at filled
                            subst filled
                            rcases unspoilt with open_ | enough | last
                            · exact Or.inl open_
                            · exact absurd enough short
                            · exact Or.inr (Or.inr last)
                        | inl empty =>
                            rw [if_pos empty] at filled
                            have length := length_block file p.offset
                            have notEof : p.eof = false := by
                              cases e : p.eof with
                              | false => rfl
                              | true => exact absurd ⟨empty, e⟩ go
                            simp only [← filled, fill, notEof, Bool.false_or, decide_eq_false_iff_not]
                            have inside := held.inside
                            omega
                  obtain ⟨bytes, after, posR⟩ := ih (heldQ.drop (b := b) (by omega)) rest (by omega)
                  refine ⟨?_, ?_, posR.trans posQ⟩
                  · dsimp only
                    rw [bytes, heldQ.take (by omega), ← List.drop_drop]
                    have split : n = b + (n - b) := by omega
                    conv_rhs => rw [split, List.take_add]
                  · dsimp only
                    rw [List.length_append, List.length_take, Nat.min_eq_left (by omega), ← Nat.add_assoc]
                    exact after

/-- With `Eof` set, what is not buffered is not read. -/
theorem readLoop_spoilt (file : List UInt8) (eof : p.eof = true) (short : p.buffp.length < n) (fueled : n < fuel) :
    (p.readLoop file fuel n).2 = p.buffp := by
  obtain ⟨fuel, rfl⟩ : ∃ f, fuel = f + 1 := ⟨fuel - 1, by omega⟩
  have more : n ≠ 0 := by omega
  cases Decidable.em (p.buffp = []) with
  | inl empty => simp [readLoop, more, empty, eof]
  | inr some =>
      have least : min n p.buffp.length = p.buffp.length := by omega
      have pos : 0 < p.buffp.length := List.length_pos_iff.mpr some
      simp only [readLoop, more, if_false, some, false_and, least]
      obtain ⟨fuel, rfl⟩ : ∃ f, fuel = f + 1 := ⟨fuel - 1, by omega⟩
      have more' : n - p.buffp.length ≠ 0 := by omega
      simp only [readLoop, more', if_false, List.drop_length, eof, and_self, if_true,
        List.append_nil, List.take_length]

/-! ## Runs of reads and seeks -/

/-- The buffer is at the position. -/
def Sound (file : List UInt8) (p : Iob) : Prop := At file p p.pos

theorem opened_sound (file : List UInt8) : Sound file opened := ⟨rfl, rfl, Nat.zero_le _⟩

theorem vread_eq (sound : Sound file p) (unspoilt : p.Unspoilt file (.vread n)) :
    (p.step file (.vread n)).2 = (seekStep file p.pos (.vread n)).2 ∧
      Sound file (p.step file (.vread n)).1 ∧
      (p.step file (.vread n)).1.pos = (seekStep file p.pos (.vread n)).1 := by
  obtain ⟨bytes, after, pos⟩ := readLoop_bytes sound unspoilt (Nat.lt_succ_self n)
  simp only [step, vread, seekStep, Sound]
  refine ⟨by rw [bytes], ?_, by rw [pos, bytes]⟩
  rw [pos]
  exact ⟨after.buffp, after.offset, after.inside⟩

theorem vread_ne (sound : Sound file p) (spoilt : ¬p.Unspoilt file (.vread n)) :
    (p.step file (.vread n)).2 ≠ (seekStep file p.pos (.vread n)).2 := by
  simp only [Unspoilt, not_or, Bool.not_eq_false] at spoilt
  obtain ⟨eof, short, left⟩ := spoilt
  have read := readLoop_spoilt file (p := p) (n := n) eof (by omega) (Nat.lt_succ_self n)
  simp only [step, vread, seekStep, read, ne_eq, IobResult.bytes.injEq]
  intro same
  have length := congrArg List.length same
  have offset := sound.offset
  simp only [List.length_take, List.length_drop] at length
  omega

theorem vseek_eq {offset : Int} {whence : Nat} (sound : Sound file p)
    (inFile : InFile file p.pos (.vseek offset whence)) :
    (p.step file (.vseek offset whence)).2 = (seekStep file p.pos (.vseek offset whence)).2 ∧
      Sound file (p.step file (.vseek offset whence)).1 ∧
      (p.step file (.vseek offset whence)).1.pos =
        (seekStep file p.pos (.vseek offset whence)).1 := by
  simp only [InFile, Option.mem_def] at inFile
  simp only [step, vseek, seekStep]
  cases target : seekTarget file.length p.pos offset whence with
  | none => exact ⟨rfl, sound, rfl⟩
  | some pos =>
      obtain ⟨low, high⟩ := inFile pos target
      cases pos with
      | negSucc k => exact absurd low (by simp)
      | ofNat pos =>
          have inside : pos ≤ file.length := Int.ofNat_le.mp high
          have length := length_block file (pos / bsize * bsize)
          have below : pos / bsize * bsize ≤ pos := Nat.div_mul_le_self ..
          have above : pos < pos / bsize * bsize + bsize := by
            have := Nat.lt_div_mul_add (a := pos) (b := bsize) (by decide)
            omega
          have least : min (pos - pos / bsize * bsize) (block file (pos / bsize * bsize)).length =
              pos - pos / bsize * bsize := by omega
          have there : pos / bsize * bsize + (pos - pos / bsize * bsize) = pos := by omega
          have whole : At file { p with
              buffp := block file (pos / bsize * bsize)
              offset := pos / bsize * bsize + (block file (pos / bsize * bsize)).length }
              (pos / bsize * bsize) := by
            refine ⟨?_, rfl, ?_⟩
            · simp only [block, List.take_eq_take_iff, List.length_take]
              omega
            · dsimp only
              omega
          have cut := whole.drop (b := pos - pos / bsize * bsize) (by
            dsimp only
            omega)
          simp only [least, there, Sound]
          refine ⟨?_, ?_, trivial⟩
          · congr 1
            omega
          · rw [there] at cut
            exact ⟨cut.buffp, cut.offset, cut.inside⟩

/-- The calls return what they should exactly as long as none of them is spoilt. -/
theorem results_eq_iff (sound : Sound file p) (calls : List IobCall)
    (inFile : Along (fun at_ call => (seekStep file at_ call).1) (InFile file) p.pos calls) :
    results (step file) p calls = results (seekStep file) p.pos calls ↔
      Along (fun p call => (step file p call).1) (Unspoilt file) p calls := by
  induction calls generalizing p with
  | nil => exact iff_of_true rfl trivial
  | cons call calls ih =>
      simp only [results, List.cons.injEq, Along] at inFile ⊢
      have one : p.Unspoilt file call → (step file p call).2 = (seekStep file p.pos call).2 ∧
          Sound file (step file p call).1 ∧ (step file p call).1.pos = (seekStep file p.pos call).1 := by
        intro unspoilt
        cases call with
        | vread n => exact vread_eq sound unspoilt
        | vseek offset whence => exact vseek_eq sound inFile.1
      constructor
      · rintro ⟨first, rest⟩
        have unspoilt : p.Unspoilt file call := by
          by_contra spoilt
          cases call with
          | vread n => exact vread_ne sound spoilt first
          | vseek => exact spoilt trivial
        obtain ⟨-, sound', pos⟩ := one unspoilt
        rw [← pos] at rest inFile
        exact ⟨unspoilt, (ih sound' inFile.2).mp rest⟩
      · rintro ⟨unspoilt, rest⟩
        obtain ⟨first, sound', pos⟩ := one unspoilt
        rw [← pos] at inFile ⊢
        exact ⟨first, (ih sound' inFile.2).mpr rest⟩

end Iob

/-! ## Writing -/

/-- What happens to a write at one turn. -/
inductive Turn where
  /-- `write` takes as many bytes at most. -/
  | takes (k : Nat)
  /-- There is no room in the socket, the call is interrupted, or a message is ignored. -/
  | idle
  /-- The command on the other end complains. -/
  | message
  /-- Neither of the two sockets is left to wait for. -/
  | hungup

/-- A descriptor that is written to, with the file or the socket behind it. -/
structure Wob where
  remote : Bool
  /-- the `cnt` bytes before `buffp` -/
  buff : List UInt8
  pos : Int
  /-- what the file or the socket has got -/
  got : List UInt8
  /-- what is yet to happen to the writes -/
  turns : List Turn

inductive WriteCall where
  | vwrite (buff : List UInt8)
  | vpad (n : Int)

namespace Wob

def opened (remote : Bool) (turns : List Turn) : Wob := ⟨remote, [], 0, [], turns⟩

/-- `write`, for a file or a socket that does not block: what it returns.  Where nothing is to
    happen to it any more it does not return. -/
def write (w : Wob) (data : List UInt8) : Option (Wob × Int) :=
  match w.turns with
  | [] => none
  | .takes k :: turns =>
    some ({ w with got := w.got ++ data.take k, turns := turns }, (data.take k).length)
  | _ :: turns => some ({ w with turns := turns }, -1)

/-- `while (n)` of `rwrite`, which waits until there is room. -/
def rwriteLoop : (turns : List Turn) → (data : List UInt8) → (nw : Int) → Wob → Option (Wob × Int)
  | [], data, nw, w => if data = [] then some ({ w with turns := [] }, nw) else none
  | turn :: turns, data, nw, w =>
    if data = [] then some ({ w with turns := turn :: turns }, nw)
    else
      match turn with
      | .takes k =>
        rwriteLoop turns (data.drop k) (nw + (data.take k).length) { w with got := w.got ++ data.take k }
      | .idle => rwriteLoop turns data nw w
      | .message => some ({ w with turns := turns }, -1)
      | .hungup => some ({ w with turns := turns }, nw)

def rwrite (w : Wob) (data : List UInt8) : Option (Wob × Int) := rwriteLoop w.turns data 0 w

/-- `writer` -/
def writer (w : Wob) (data : List UInt8) : Option (Wob × Int) :=
  if w.remote then w.rwrite data else w.write data

/-- The whole buffer is written, or the call fails. -/
def flush (w : Wob) : Option Wob :=
  match w.writer (w.buff.take bsize) with
  | some (w, n) => if n = bsize then some { w with buff := [] } else none
  | none => none

/-- `while (n)` -/
def writeLoop : (fuel : Nat) → Wob → (buff : List UInt8) → Option Wob
  | 0, w, _ => some w
  | fuel + 1, w, buff =>
    if buff = [] then some w
    else
      match if bsize ≤ w.buff.length then w.flush else some w with
      | none => none
      | some w =>
        let b := min buff.length (bsize - w.buff.length)
        writeLoop fuel { w with buff := w.buff ++ buff.take b } (buff.drop b)

def vwrite (w : Wob) (buff : List UInt8) : Option Wob :=
  (w.writeLoop buff.length buff).map fun w => { w with pos := w.pos + buff.length }

/-- `there`, up to where a file is padded. -/
def padTo (pos n : Int) : Int := (pos + n).tdiv n * n

/-- `while ((nb = there - p->pos) > 0)` -/
def padLoop (there : Int) : (fuel : Nat) → Wob → Option Wob
  | 0, w => some w
  | fuel + 1, w =>
    let nb := there - w.pos
    if 0 < nb then
      (w.vwrite (List.replicate (min nb 1024).toNat 0)).bind (padLoop there fuel)
    else some w

/-- No file is padded to a multiple of zero. -/
def vpad (w : Wob) (n : Int) : Option Wob :=
  if n = 0 then none else padLoop (padTo w.pos n) (padTo w.pos n - w.pos).toNat w

/-- What is left in the buffer is given to `write`, whatever the descriptor is; `closed` tells
    whether the descriptor can be closed. -/
def vclose (closed : Bool) (w : Wob) : Option (Wob × Int) :=
  let e : Int := if closed then 0 else -1
  if w.buff = [] then some (w, e)
  else
    match w.write w.buff with
    | some (w', n) => some ({ w' with buff := [] }, if n = w.buff.length then e else -1)
    | none => none

/-- The calls one after another, as long as they succeed. -/
def writes : Wob → List WriteCall → Option Wob
  | w, [] => some w
  | w, .vwrite buff :: calls => (w.vwrite buff).bind fun w => writes w calls
  | w, .vpad n :: calls => (w.vpad n).bind fun w => writes w calls

/-- The data of the calls, from a position on. -/
def written : Int → List WriteCall → List UInt8
  | _, [] => []
  | pos, .vwrite buff :: calls => buff ++ written (pos + buff.length) calls
  | pos, .vpad n :: calls =>
    let zeros := List.replicate (padTo pos n - pos).toNat 0
    zeros ++ written (pos + zeros.length) calls

/-- A single `write` takes all that is left in the buffer. -/
def TakesRest (w : Wob) : Prop :=
  w.buff = [] ∨ ∃ k turns, w.turns = .takes k :: turns ∧ w.buff.length ≤ k

variable {w w' : Wob} {fuel : Nat} {buff data : List UInt8}

/-- A `write` appends what it takes, or fails. -/
theorem write_cases {n : Int} (returned : w.write data = some (w', n)) :
    (w'.buff = w.buff ∧ w'.pos = w.pos) ∧
      ((∃ k turns, w.turns = .takes k :: turns ∧ w'.got = w.got ++ data.take k ∧
          n = (data.take k).length) ∨
        (∀ k turns, w.turns ≠ .takes k :: turns) ∧ w'.got = w.got ∧ n = -1) := by
  unfold write at returned
  cases here : w.turns with
  | nil =>
      rw [here] at returned
      cases returned
  | cons turn turns =>
      rw [here] at returned
      cases turn with
      | takes k =>
          cases returned
          exact ⟨⟨rfl, rfl⟩, .inl ⟨k, turns, rfl, rfl, rfl⟩⟩
      | idle =>
          cases returned
          exact ⟨⟨rfl, rfl⟩, .inr ⟨by simp, rfl, rfl⟩⟩
      | message =>
          cases returned
          exact ⟨⟨rfl, rfl⟩, .inr ⟨by simp, rfl, rfl⟩⟩
      | hungup =>
          cases returned
          exact ⟨⟨rfl, rfl⟩, .inr ⟨by simp, rfl, rfl⟩⟩

theorem take_whole {k : Nat} : data.take k = data ↔ data.length ≤ k :=
  ⟨fun same => by
    have length := congrArg List.length same
    rw [List.length_take] at length
    omega, List.take_of_length_le⟩

theorem write_whole (returned : w.write data = some (w', (data.length : Int))) :
    w'.got = w.got ++ data ∧ w'.buff = w.buff ∧ w'.pos = w.pos := by
  obtain ⟨same, ⟨k, turns, -, got, length⟩ | ⟨-, -, failed⟩⟩ := write_cases returned
  · have whole : data.take k = data := take_whole.mpr (by
      rw [List.length_take] at length
      omega)
    exact ⟨by rw [got, whole], same⟩
  · omega

/-- An `rwrite` that returns the whole length has appended everything, in pieces. -/
theorem rwriteLoop_whole {turns : List Turn} {nw : Int} (nonneg : 0 ≤ nw)
    (returned : rwriteLoop turns data nw w = some (w', nw + data.length)) :
    w'.got = w.got ++ data ∧ w'.buff = w.buff ∧ w'.pos = w.pos := by
  induction turns generalizing data nw w with
  | nil =>
      unfold rwriteLoop at returned
      split at returned
      next none =>
        injection returned with pair
        injection pair with here
        subst here
        simp [none]
      next => cases returned
  | cons turn turns ih =>
      unfold rwriteLoop at returned
      split at returned
      next none =>
        injection returned with pair
        injection pair with here
        subst here
        simp [none]
      next some =>
        have more : 0 < data.length := List.length_pos_iff.mpr some
        cases turn with
        | takes k =>
            have total : nw + (data.length : Int) =
                nw + ((data.take k).length : Int) + ((data.drop k).length : Int) := by
              simp only [List.length_take, List.length_drop]
              omega
            rw [total] at returned
            obtain ⟨got, rest⟩ := ih (by omega) returned
            refine ⟨?_, rest⟩
            rw [got, List.append_assoc, List.take_append_drop]
        | idle => exact ih nonneg returned
        | message =>
            injection returned with pair
            injection pair with _ failed
            omega
        | hungup =>
            injection returned with pair
            injection pair with _ failed
            omega

theorem writer_whole (returned : w.writer data = some (w', (data.length : Int))) :
    w'.got = w.got ++ data ∧ w'.buff = w.buff ∧ w'.pos = w.pos := by
  unfold writer at returned
  split at returned
  next => exact rwriteLoop_whole (Int.le_refl 0) (by rwa [Int.zero_add])
  next => exact write_whole returned

theorem flush_whole (fits : w.buff.length ≤ bsize) (full : bsize ≤ w.buff.length)
    (flushed : w.flush = some w') :
    w'.got ++ w'.buff = w.got ++ w.buff ∧ w'.buff = [] ∧ w'.pos = w.pos := by
  have whole : w.buff.take bsize = w.buff := List.take_of_length_le fits
  have length : (bsize : Int) = w.buff.length := by omega
  unfold flush at flushed
  rw [whole, length] at flushed
  split at flushed
  next v n wrote =>
    split at flushed
    next all =>
      rw [all] at wrote
      obtain ⟨got, -, pos⟩ := writer_whole wrote
      obtain rfl := Option.some.inj flushed
      exact ⟨by rw [List.append_nil, got], rfl, pos⟩
    next => cases flushed
  next => cases flushed

/-- From `w` to `w'`, some data has been written. -/
structure Wrote (w w' : Wob) (data : List UInt8) : Prop where
  bytes : w'.got ++ w'.buff = w.got ++ w.buff ++ data
  fits : w.buff.length ≤ bsize → w'.buff.length ≤ bsize

theorem Wrote.refl (w : Wob) : Wrote w w [] := ⟨by simp, id⟩

theorem Wrote.trans {w'' : Wob} (first : Wrote w w' buff) (second : Wrote w' w'' data) :
    Wrote w w'' (buff ++ data) :=
  ⟨by rw [second.bytes, first.bytes, List.append_assoc], second.fits ∘ first.fits⟩

theorem writeLoop_wrote (fits : w.buff.length ≤ bsize) (fueled : buff.length ≤ fuel)
    (success : w.writeLoop fuel buff = some w') :
    Wrote w w' buff ∧ w'.pos = w.pos := by
  induction fuel generalizing w buff with
  | zero =>
      cases List.eq_nil_of_length_eq_zero (Nat.le_zero.mp fueled)
      cases success
      exact ⟨.refl _, rfl⟩
  | succ fuel ih =>
      unfold writeLoop at success
      split at success
      · next none =>
          cases success
          subst none
          exact ⟨.refl _, rfl⟩
      · next some =>
          split at success
          · cases success
          · next v flushed =>
              have step : v.got ++ v.buff = w.got ++ w.buff ∧ v.buff.length < bsize ∧
                  v.pos = w.pos := by
                split at flushed
                · next full =>
                    obtain ⟨bytes, empty, pos⟩ := flush_whole fits full flushed
                    exact ⟨bytes, by simp [empty, bsize], pos⟩
                · next room =>
                    cases flushed
                    exact ⟨rfl, Nat.lt_of_not_le room, rfl⟩
              obtain ⟨same, room, pos⟩ := step
              have more : 0 < buff.length := List.length_pos_iff.mpr some
              obtain ⟨b, least⟩ : ∃ b, min buff.length (bsize - v.buff.length) = b := ⟨_, rfl⟩
              rw [least] at success
              have first : Wrote w { v with buff := v.buff ++ buff.take b } (buff.take b) := by
                refine ⟨?_, fun _ => ?_⟩
                · rw [← List.append_assoc, same]
                · simp only [List.length_append, List.length_take]
                  omega
              obtain ⟨second, posW⟩ := ih (w := { v with buff := v.buff ++ buff.take b })
                (first.fits fits)
                (by
                  rw [List.length_drop]
                  omega) success
              have both := first.trans second
              rw [List.take_append_drop] at both
              exact ⟨both, posW.trans pos⟩

theorem vwrite_wrote (fits : w.buff.length ≤ bsize) (success : w.vwrite buff = some w') :
    Wrote w w' buff ∧ w'.pos = w.pos + buff.length := by
  simp only [vwrite, Option.map_eq_some_iff] at success
  obtain ⟨v, loop, rfl⟩ := success
  obtain ⟨wrote, pos⟩ := writeLoop_wrote fits (Nat.le_refl _) loop
  exact ⟨⟨wrote.bytes, wrote.fits⟩, by rw [pos]⟩

theorem padLoop_wrote {there : Int} (fits : w.buff.length ≤ bsize)
    (fueled : (there - w.pos).toNat ≤ fuel) (success : padLoop there fuel w = some w') :
    Wrote w w' (List.replicate (there - w.pos).toNat 0) ∧
      w'.pos = w.pos + (there - w.pos).toNat := by
  induction fuel generalizing w with
  | zero =>
      have none : (there - w.pos).toNat = 0 := Nat.le_zero.mp fueled
      cases success
      rw [none]
      exact ⟨.refl _, by simp⟩
  | succ fuel ih =>
      unfold padLoop at success
      dsimp only at success
      split at success
      · next more =>
          obtain ⟨v, piece, rest⟩ := Option.bind_eq_some_iff.mp success
          obtain ⟨first, pos⟩ := vwrite_wrote fits piece
          simp only [List.length_replicate] at pos
          obtain ⟨second, pos'⟩ := ih (first.fits fits) (by omega) rest
          have both := first.trans second
          rw [List.replicate_append_replicate] at both
          have total : (min (there - w.pos) 1024).toNat + (there - v.pos).toNat =
              (there - w.pos).toNat := by omega
          rw [total] at both
          exact ⟨both, by omega⟩
      · next done =>
          have none : (there - w.pos).toNat = 0 := by omega
          cases success
          rw [none]
          exact ⟨.refl _, by simp⟩

theorem writes_wrote {calls : List WriteCall} (fits : w.buff.length ≤ bsize)
    (success : writes w calls = some w') : Wrote w w' (written w.pos calls) := by
  induction calls generalizing w with
  | nil =>
      cases success
      exact .refl _
  | cons call calls ih =>
      cases call with
      | vwrite buff =>
          obtain ⟨v, first, rest⟩ := Option.bind_eq_some_iff.mp success
          obtain ⟨wrote, pos⟩ := vwrite_wrote fits first
          have later := ih (wrote.fits fits) rest
          rw [pos] at later
          exact wrote.trans later
      | vpad n =>
          obtain ⟨v, first, rest⟩ := Option.bind_eq_some_iff.mp success
          unfold vpad at first
          split at first
          · cases first
          · obtain ⟨wrote, pos⟩ := padLoop_wrote fits (Nat.le_refl _) first
            have later := ih (wrote.fits fits) rest
            rw [pos] at later
            simp only [written, List.length_replicate]
            exact wrote.trans later

/-- `vclose` hands over all that is left where one `write` takes it; where it does not, it
    says so. -/
theorem vclose_got {closed : Bool} {e : Int} (close : w.vclose closed = some (w', e)) :
    (w'.got = w.got ++ w.buff ↔ w.TakesRest) ∧ (e = 0 → w.TakesRest) := by
  unfold vclose at close
  dsimp only at close
  split at close
  next empty =>
    cases close
    exact ⟨iff_of_true (by simp [empty]) (.inl empty), fun _ => .inl empty⟩
  next some =>
    split at close
    next v n wrote =>
      injection close with pair
      injection pair with here status
      subst here status
      have left : 0 < w.buff.length := List.length_pos_iff.mpr some
      obtain ⟨-, ⟨k, turns, here, got, length⟩ | ⟨none, got, failed⟩⟩ := write_cases wrote
      · have rest : w.TakesRest ↔ w.buff.length ≤ k := by
          simp only [TakesRest, some, here, false_or, List.cons.injEq, Turn.takes.injEq,
            exists_eq_left', exists_and_left, and_assoc]
        refine ⟨?_, fun success => ?_⟩
        · rw [rest, ← take_whole]
          dsimp only
          rw [got, List.append_cancel_left_eq]
        · rw [rest]
          split at success
          next all =>
            rw [length, List.length_take] at all
            omega
          next => cases success
      · have lost : ¬ w.TakesRest := by
          rintro (empty | ⟨k, turns, here, -⟩)
          · exact some empty
          · exact none k turns here
        refine ⟨iff_of_false ?_ lost, fun success => ?_⟩
        · dsimp only
          rw [got, List.self_eq_append_right]
          exact some
        · rw [if_neg (by omega)] at success
          cases success
    next => cases close

/-- Whatever the descriptor is, it has got everything where what `vclose` finds in the buffer
    is taken by one `write`. -/
theorem vclose_got_iff {remote : Bool} {turns : List Turn} {calls : List WriteCall} {closed : Bool}
    {e : Int} (success : writes (opened remote turns) calls = some w)
    (close : w.vclose closed = some (w', e)) :
    (w'.got = written 0 calls ↔ w.TakesRest) ∧ (e = 0 → w'.got = written 0 calls) := by
  have wrote := writes_wrote (w := opened remote turns) (Nat.zero_le _) success
  have data : w.got ++ w.buff = written 0 calls := wrote.bytes
  obtain ⟨got, told⟩ := vclose_got close
  rw [← data]
  exact ⟨got, fun fine => got.mpr (told fine)⟩

end Wob

/-- Buffered reading is reading exactly where no `vread` comes upon an `Eof` that a seek has
    left behind, and buffered writing is writing exactly where one `write` takes what is left in
    the buffer when the file is closed; if it does not, `vclose` fails. -/
theorem buffered_iff (file : List UInt8) (calls : List IobCall)
    (inFile : Along (fun at_ call => (seekStep file at_ call).1) (InFile file) 0 calls) :
    (results (Iob.step file) Iob.opened calls = results (seekStep file) 0 calls ↔
      Along (fun p call => (Iob.step file p call).1) (Iob.Unspoilt file) Iob.opened calls) ∧
    ∀ remote turns outs w, Wob.writes (Wob.opened remote turns) outs = some w →
      ∀ closed w' e, w.vclose closed = some (w', e) →
        (w'.got = Wob.written 0 outs ↔ w.TakesRest) ∧ (e = 0 → w'.got = Wob.written 0 outs) :=
  ⟨Iob.results_eq_iff (Iob.opened_sound file) calls inFile,
    fun _ _ _ _ success _ _ _ close => Wob.vclose_got_iff success close⟩

/-- Three bytes are read, from the second one on and then again from the first. -/
theorem buffered_iff_three :
    results (Iob.step [1, 2, 3]) Iob.opened [.vseek 1 0, .vread 2, .vseek 0 0, .vread 3] =
        results (seekStep [1, 2, 3]) 0 [.vseek 1 0, .vread 2, .vseek 0 0, .vread 3] ↔
      Along (fun p call => (Iob.step [1, 2, 3] p call).1) (Iob.Unspoilt [1, 2, 3]) Iob.opened
        [.vseek 1 0, .vread 2, .vseek 0 0, .vread 3] := by
  refine (buffered_iff [1, 2, 3] [.vseek 1 0, .vread 2, .vseek 0 0, .vread 3] ⟨?_, trivial, ?_, trivial, trivial⟩).1
  · rintro pos ⟨⟩
    decide
  · rintro pos ⟨⟩
    decide

/-- A file is a byte longer than the buffer. After a read at its end, a seek back to the beginning
    and a read of the whole file, that byte is missing. A socket has room for one byte: of the two
    that are left for it `vclose` gives it one, where `rwrite` waits for room for the other. -/
theorem eof_not_cleared :
    (Along (fun at_ call => (seekStep (List.replicate 4097 7) at_ call).1)
        (InFile (List.replicate 4097 7)) 0 [.vseek 4096 0, .vread 2, .vseek 0 0, .vread 4097] ∧
      results (Iob.step (List.replicate 4097 7)) Iob.opened
          [.vseek 4096 0, .vread 2, .vseek 0 0, .vread 4097] ≠
        results (seekStep (List.replicate 4097 7)) 0
          [.vseek 4096 0, .vread 2, .vseek 0 0, .vread 4097]) ∧
    ((Wob.writes (Wob.opened true [.takes 1, .takes 1]) [.vwrite [1, 2]]).bind
        (Wob.vclose true)).map (·.1.got) = some [1] ∧
      ((Wob.writes (Wob.opened true [.takes 1, .takes 1]) [.vwrite [1, 2]]).bind fun w =>
        w.rwrite w.buff).map (·.1.got) = some [1, 2] ∧
      Wob.written 0 [.vwrite [1, 2]] = [1, 2] := by
  have inFile : Along (fun at_ call => (seekStep (List.replicate 4097 7) at_ call).1)
      (InFile (List.replicate 4097 7)) 0 [.vseek 4096 0, .vread 2, .vseek 0 0, .vread 4097] := by
    simp [Along, InFile, seekTarget, -List.reduceReplicate]
  refine ⟨⟨inFile, fun same => ?_⟩, by decide, by decide, by decide⟩
  have unspoilt := (Iob.results_eq_iff (Iob.opened_sound _)
    [.vseek 4096 0, .vread 2, .vseek 0 0, .vread 4097] inFile).mp same
  simp [Along, Iob.Unspoilt, Iob.step, Iob.vseek, Iob.vread, Iob.opened, Iob.readLoop, Iob.fill,
    Iob.block, bsize, seekTarget, -List.reduceReplicate] at unspoilt

end Irix.Inst
