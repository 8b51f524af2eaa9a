import Irix.Lib.Run
import Irix.Rmap.Map

/-! # Resource maps conserve resources

Whatever is allocated and freed, every unit of the initial range is in one free
segment, or allocated, or in a range reported lost.
-/

namespace Irix.Rmap

open Lib

/-- A map with the units that are allocated from it, and the segments reported lost. -/
structure Usage where
  slots : List Mapent
  live : Int → Prop
  lost : List Mapent

inductive Op where
  | rmalloc (size : Int)
  | rmfree (size addr : Int)

namespace Usage

variable (dmmax : Option Int)

def step (s : Usage) : Op → Usage
  | .rmalloc size =>
      match Rmap.rmalloc dmmax s.slots size with
      | .ok (slots, addr) =>
          if addr = 0 then { s with slots }
          else { s with slots, live := fun x => s.live x ∨ Range size addr x }
      | .error _ => s
  | .rmfree size addr =>
      match Rmap.rmfree s.slots size addr with
      | .ok (slots, lost) => ⟨slots, fun x => s.live x ∧ ¬ Range size addr x, lost.toList ++ s.lost⟩
      | .error _ => s

/-- What is freed is space that was allocated. -/
def Allowed (s : Usage) : Op → Prop
  | .rmalloc _ => True
  | .rmfree size addr => 0 < size ∧ ∀ x, Range size addr x → s.live x

/-- All of the range is free. -/
def start (size addr : Int) (mapsize : Nat) : Usage := ⟨rminit size addr mapsize, fun _ => False, []⟩

/-- Each unit of the range is in one piece, or allocated, or lost. -/
structure Shares (size addr : Int) (segs : List Mapent) (s : Usage) : Prop where
  units : ∀ x, Range size addr x ↔ Covers segs x ∨ s.live x ∨ Covers s.lost x
  live : ∀ x, Covers segs x → ¬ s.live x
  lost : ∀ x, Covers segs x → ¬ Covers s.lost x
  gone : ∀ x, s.live x → ¬ Covers s.lost x

/-- The map has the pieces, with a delimiter in one of its slots behind them. -/
structure Sound (size addr : Int) (mapsize : Nat) (segs : List Mapent) (n : Nat) (s : Usage) : Prop where
  slots : s.slots = segs ++ List.replicate (n + 1) Mapent.zero
  length : segs.length + (n + 1) = mapsize - 1
  pieces : Pieces segs
  shares : Shares size addr segs s

section

variable {dmmax : Option Int} {size addr request place : Int} {mapsize n : Nat} {segs segs' : List Mapent}
  {s : Usage}

theorem start_sound (many : 3 ≤ mapsize) (range : 0 < size ∧ 0 < addr ∨ size = 0 ∧ addr = 0) :
    ∃ segs n, Sound size addr mapsize segs n (start size addr mapsize) := by
  have none : ∀ {segs}, (∀ x, Range size addr x ↔ Covers segs x) → Shares size addr segs (start size addr mapsize) :=
    fun units => ⟨fun x => by simp [units, start], fun _ _ => id, fun _ _ => by simp [start], fun _ => nofun⟩
  rcases range with some | ⟨rfl, rfl⟩
  · refine ⟨[⟨size, addr⟩], mapsize - 3, ?_, by simp; omega, ?_, none fun x => by simp [Range]⟩
    · rw [start, rminit, show mapsize - 2 = mapsize - 3 + 1 by omega]
      rfl
    · exact pieces_cons.mpr ⟨some, ⟨by simp, .nil⟩, by simp⟩
  · refine ⟨[], mapsize - 2, ?_, by simp; omega, ⟨by simp, .nil⟩, none fun x => by simp [Range]⟩
    rw [start, rminit, List.nil_append, List.replicate_succ]
    rfl

theorem Shares.took (shares : Shares size addr segs s) (took : Took request place segs segs') {slots : List Mapent} :
    Shares size addr segs' { s with slots, live := fun x => s.live x ∨ Range request place x } := by
  refine ⟨fun x => ?_, fun x kept taken => ?_, fun x kept => shares.lost x ((took.left x).mp kept).1,
    fun x taken => ?_⟩
  · have free := took.free x
    rw [shares.units, took.left]
    dsimp only
    grind -ring -linarith
  · obtain ⟨here, out⟩ := (took.left x).mp kept
    exact taken.elim (shares.live x here) out
  · exact taken.elim (shares.gone x) fun inside => shares.lost x (took.free x inside)

theorem Shares.freed {lost : Option Mapent} (shares : Shares size addr segs s)
    (owned : ∀ x, Range request place x → s.live x) (freed : Freed request place segs segs' lost)
    {slots : List Mapent} :
    Shares size addr segs' ⟨slots, fun x => s.live x ∧ ¬ Range request place x, lost.toList ++ s.lost⟩ := by
  have old : ∀ x, Covers segs' x ∨ Covers lost.toList x → Covers segs x ∨ Range request place x :=
    fun x => (freed.units x).mp
  have kept : ∀ x, Covers segs x ∨ Range request place x → ¬ Covers s.lost x := by
    rintro x (here | inside)
    · exact shares.lost x here
    · exact shares.gone x (owned x inside)
  refine ⟨fun x => ?_, fun x here taken => ?_, fun x here => ?_, fun x taken => ?_⟩
  · have units := freed.units x
    have owned := owned x
    rw [shares.units, covers_append]
    dsimp only
    grind -ring -linarith
  · rcases old x (Or.inl here) with before | inside
    · exact shares.live x before taken.1
    · exact taken.2 inside
  · rw [covers_append, not_or]
    exact ⟨freed.apart x here, kept x (old x (Or.inl here))⟩
  · rw [covers_append, not_or]
    refine ⟨fun gone => ?_, shares.gone x taken.1⟩
    rcases old x (Or.inr gone) with before | inside
    · exact shares.live x before taken.1
    · exact taken.2 inside

/-- What `rmalloc` returns was free. -/
theorem Sound.rmalloc (sound : Sound size addr mapsize segs n s) (some : 0 < request)
    (most : ∀ limit ∈ dmmax, request ≤ limit) :
    Rmap.rmalloc dmmax s.slots request = .ok (s.slots, 0) ∧ (∀ f ∈ segs, f.mSize < request) ∨
    ∃ segs' n' place, Rmap.rmalloc dmmax s.slots request =
        .ok (segs' ++ List.replicate (n' + 1) Mapent.zero, place) ∧
      segs'.length + n' = segs.length + n ∧ Took request place segs segs' := by
  have valid : ¬ (request ≤ 0 ∨ ∃ limit ∈ dmmax, limit < request) := by
    rintro (low | ⟨limit, here, less⟩)
    · omega
    · have := most limit here
      omega
  rw [Rmap.rmalloc, if_neg valid, sound.slots]
  rcases rmallocSlots_pieces sound.pieces some n with failed | ⟨segs', place, n', found, length, took⟩
  · exact Or.inl failed
  · exact Or.inr ⟨segs', n', place, found, length, took⟩

theorem Sound.rmfree (sound : Sound size addr mapsize segs n s) (many : 3 ≤ mapsize)
    (initial : 0 < addr ∨ size = 0) (some : 0 < request) (owned : ∀ x, Range request place x → s.live x) :
    Leaves (Rmap.rmfree s.slots request place) request place segs n := by
  have inside := (sound.shares.units place).mpr (Or.inr (Or.inl (owned place ⟨Int.le_refl _, by omega⟩)))
  have length := sound.length
  rw [sound.slots]
  refine rmfree_leaves sound.pieces ⟨some, ?_⟩ (fun x here free => sound.shares.live x free (owned x here)) (by omega)
  simp only [Range] at inside
  omega

theorem Sound.step (sound : ∃ segs n, Sound size addr mapsize segs n s) (many : 3 ≤ mapsize)
    (initial : 0 < addr ∨ size = 0) {op : Op} (allowed : s.Allowed op) :
    ∃ segs n, Sound size addr mapsize segs n (s.step dmmax op) := by
  obtain ⟨segs, n, sound⟩ := sound
  have length := sound.length
  cases op with
  | rmalloc request =>
      rw [Usage.step]
      by_cases valid : 0 < request ∧ ∀ limit ∈ dmmax, request ≤ limit
      · rcases sound.rmalloc valid.1 valid.2 with ⟨failed, -⟩ | ⟨segs', n', place, found, same, took⟩
        · rw [failed]
          exact ⟨segs, n, sound⟩
        · rw [found]
          have start := took.start
          dsimp only
          rw [if_neg (by omega)]
          exact ⟨segs', n', rfl, by omega, took.pieces, sound.shares.took took⟩
      · have panics : request ≤ 0 ∨ ∃ limit ∈ dmmax, limit < request := by
          by_contra fine
          simp only [not_or, not_exists, not_and, Int.not_le, Int.not_lt] at fine
          exact valid fine
        rw [Rmap.rmalloc, if_pos panics]
        exact ⟨segs, n, sound⟩
  | rmfree request place =>
      obtain ⟨some, owned⟩ := allowed
      obtain ⟨segs', lost, n', freed, same, units⟩ := sound.rmfree many initial some owned
      rw [Usage.step, freed]
      exact ⟨segs', n', rfl, by omega, units.pieces, sound.shares.freed owned units⟩

end

end Usage

/-- Each unit of the initial range is in one segment, or allocated, or reported lost, the
    segments are sorted and do not abut, a zero entry before `m_limit` ends them, and what
    is allocated overlaps nothing that is.  Of the source this says as much for ranges that
    end below 2^31, where no sum of `int`s overflows. -/
theorem resources_conserved (dmmax : Option Int) (size addr : Int) (mapsize : Nat) (many : 3 ≤ mapsize)
    (range : 0 < size ∧ 0 < addr ∨ size = 0 ∧ addr = 0) (ops : List Op)
    (along : Run.Along (Usage.step dmmax) Usage.Allowed (Usage.start size addr mapsize) ops) :
    let s := Run.exec (Usage.step dmmax) (Usage.start size addr mapsize) ops
    (∃ segs n, s.slots = segs ++ Mapent.zero :: List.replicate n Mapent.zero ∧
      s.slots.length = mapsize - 1 ∧
      (∀ f ∈ segs, 0 < f.mSize) ∧ (segs.Pairwise fun f g => f.mAddr + f.mSize < g.mAddr) ∧
      (∀ x, Range size addr x ↔ Covers segs x ∨ s.live x ∨ Covers s.lost x) ∧
      ∀ x, ¬ (Covers segs x ∧ s.live x) ∧ ¬ (Covers segs x ∧ Covers s.lost x) ∧
        ¬ (s.live x ∧ Covers s.lost x)) ∧
    (∀ request, 0 < request → (∀ limit ∈ dmmax, request ≤ limit) →
      ∃ slots place, rmalloc dmmax s.slots request = .ok (slots, place) ∧
        (place = 0 ∨ ∀ x, Range request place x → ¬ s.live x)) ∧
    ∀ request place, s.Allowed (.rmfree request place) →
      ∃ slots lost, rmfree s.slots request place = .ok (slots, lost) := by
  intro s
  have initial : 0 < addr ∨ size = 0 := by omega
  have keep : ∀ (s : Usage) op, (∃ segs n, Usage.Sound size addr mapsize segs n s) → s.Allowed op →
      ∃ segs n, Usage.Sound size addr mapsize segs n (s.step dmmax op) :=
    fun _ _ sound allowed => Usage.Sound.step sound many initial allowed
  obtain ⟨segs, n, sound⟩ : ∃ segs n, Usage.Sound size addr mapsize segs n s :=
    Run.invariant keep (Usage.start_sound many range) along
  refine ⟨⟨segs, n, ?_, ?_, fun f listed => (sound.pieces.solid f listed).1, sound.pieces.gaps,
    sound.shares.units, fun x => ⟨?_, ?_, ?_⟩⟩, fun request some most => ?_, fun request place allowed => ?_⟩
  · rw [sound.slots, List.replicate_succ]
  · rw [sound.slots, List.length_append, List.length_replicate]
    exact sound.length
  · exact fun both => sound.shares.live x both.1 both.2
  · exact fun both => sound.shares.lost x both.1 both.2
  · exact fun both => sound.shares.gone x both.1 both.2
  · rcases sound.rmalloc some most with ⟨failed, -⟩ | ⟨segs', n', place, found, -, took⟩
    · exact ⟨_, 0, failed, Or.inl rfl⟩
    · exact ⟨_, place, found, Or.inr fun x inside => sound.shares.live x (took.free x inside)⟩
  · obtain ⟨segs', lost, n', freed, -, -⟩ := sound.rmfree many initial allowed.1 allowed.2
    exact ⟨_, lost, freed⟩

/-- Two ranges are allocated from a map with room for two segments, and two parts of the
    first are freed: of the three segments the second is lost. -/
def overflow : List Op := [.rmalloc 10, .rmalloc 5, .rmfree 2 3, .rmfree 2 7]

theorem resources_conserved_overflow :
    let s := Run.exec (Usage.step none) (Usage.start 100 1 4) overflow
    s.lost = [⟨2, 7⟩] ∧ ∃ slots place, rmalloc none s.slots 5 = .ok (slots, place) ∧
      (place = 0 ∨ ∀ x, Range 5 place x → ¬ s.live x) := by
  refine ⟨by decide, (resources_conserved none 100 1 4 (by decide) (Or.inl ⟨by decide, by decide⟩) overflow
    ⟨trivial, trivial, ⟨by decide, fun x inside => ?_⟩, ⟨by decide, fun x inside => ?_⟩, trivial⟩).2.1 5
      (by decide) (by simp)⟩
  · exact Or.inl (Or.inr (show Range 10 1 x from ⟨by have := inside.1; omega, by have := inside.2; omega⟩))
  · refine ⟨Or.inl (Or.inr (show Range 10 1 x from ⟨?_, ?_⟩)), fun again => ?_⟩
    · have := inside.1
      omega
    · have := inside.2
      omega
    · have := again.2
      have := inside.1
      omega

end Irix.Rmap
