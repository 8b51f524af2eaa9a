import Irix.Callout.Refine

/-! # Callouts on time

Along a run in which no `timeout` finds an overdue entry, the table shows the book:
the sums of the times are the ticks left, and the calls are made in the order of
the due times.
-/

namespace Irix.Callout

open Lib Lib.Pointed Lib.Run

variable {F A : Type} {n : Nat}

/-! ## The range of the times -/

namespace Book.Near

variable {b : Book F A}

/-- What is due first bounds what is due. -/
theorem first_le (orderly : b.Orderly) {x : Request F A} (listed : x ∈ b.pending) :
    ∃ first ∈ b.pending.head?, first.due ≤ x.due := by
  have sorted := orderly.sorted
  cases pending : b.pending with
  | nil =>
    rw [pending] at listed
    cases listed
  | cons first rest =>
    rw [pending] at sorted listed
    refine ⟨first, rfl, ?_⟩
    rcases List.mem_cons.mp listed with rfl | later
    · exact le_refl _
    · exact (List.pairwise_cons.mp sorted).1 x later

theorem mono (near : b.Near) {b' : Book F A} (now : b'.now = b.now)
    (fewer : ∀ x ∈ b'.pending, x ∈ b.pending) : b'.Near := by
  refine ⟨fun x listed => ?_, fun x listed => ?_, fun x listed y listed' => ?_⟩
  · rw [now]
    exact near.low x (fewer x listed)
  · rw [now]
    exact near.high x (fewer x listed)
  · exact near.spread x (fewer x listed) y (fewer y listed')

theorem blank : (blank F A).Near :=
  ⟨fun _ listed => (nomatch listed), fun _ listed => (nomatch listed),
    fun _ listed => (nomatch listed)⟩

theorem timeout (near : b.Near) (orderly : b.Orderly) (fn : F) (arg : A) {t : Int} (t_pos : 1 ≤ t)
    (t_lt : t < 2 ^ 31) (ahead : ∀ first ∈ b.pending.head?, b.now ≤ first.due) :
    (b.timeout n fn arg t).Near := by
  have onward : ∀ x ∈ b.pending, b.now ≤ x.due := by
    intro x listed
    obtain ⟨first, head, before⟩ := first_le orderly listed
    exact le_trans (ahead first head) before
  unfold Book.timeout
  split
  next room =>
    refine ⟨fun x listed => ?_, fun x listed => ?_, fun x listed y listed' => ?_⟩
    · dsimp only at listed ⊢
      rcases List.mem_orderedInsert _ |>.mp listed with rfl | before
      · dsimp only
        omega
      · exact near.low x before
    · dsimp only at listed ⊢
      rcases List.mem_orderedInsert _ |>.mp listed with rfl | before
      · dsimp only
        omega
      · exact near.high x before
    · dsimp only at listed listed'
      rcases List.mem_orderedInsert _ |>.mp listed with rfl | before <;>
        rcases List.mem_orderedInsert _ |>.mp listed' with rfl | before'
      · omega
      · have high := near.high y before'
        dsimp only
        omega
      · have low := onward x before
        dsimp only
        omega
      · exact near.spread x before y before'
  next => exact near.mono rfl fun _ listed => listed

theorem hardclock (near : b.Near) (orderly : b.Orderly)
    (ahead : ∀ first ∈ b.pending.head?, -2 ^ 31 < first.due - b.now) :
    Near { b with now := b.now + 1 } := by
  refine ⟨fun x listed => ?_, fun x listed => ?_, near.spread⟩
  · obtain ⟨first, head, before⟩ := first_le orderly listed
    have low := ahead first head
    dsimp only
    omega
  · have high := near.high x listed
    dsimp only
    omega

theorem cancel (near : b.Near) (hit : Request F A → Bool) : (b.cancel hit).Near :=
  near.mono rfl fun _ listed => List.mem_of_mem_eraseP listed

theorem call (near : b.Near) : b.call.Near := by
  unfold Book.call
  split
  next => exact near
  next r rest pending =>
    split
    next =>
      refine near.mono rfl fun x listed => ?_
      rw [pending]
      exact List.mem_cons_of_mem _ listed
    next => exact near

end Book.Near

/-! ## Runs -/

/-- The table shows the book, and what is known of the book. -/
structure Kept (c : Table F A n) (b : Book F A) : Prop where
  shows : ∃ todo free, Shows c b todo free
  orderly : b.Orderly
  near : b.Near

section

variable [DecidableEq F] [DecidableEq A]

theorem Kept.step {c : Table F A n} {b : Book F A} (kept : Kept c b) {e : Event F A}
    (timely : c.Timely e) : Kept (c.step e) (b.step n e) := by
  obtain ⟨⟨todo, free, shows⟩, orderly, near⟩ := kept
  have stopped := shows.stopped
  unfold Table.step Book.step
  rw [stopped]
  split
  next => exact ⟨⟨todo, free, shows⟩, orderly, near⟩
  next =>
    cases e with
    | timeout fn arg t =>
      obtain ⟨⟨t_pos, t_lt⟩, ahead⟩ := timely
      refine ⟨shows.timeout orderly near fn arg t_pos t_lt ahead,
        orderly.timeout fn arg t_pos, near.timeout orderly fn arg t_pos t_lt fun first head => ?_⟩
      obtain ⟨p, top, time⟩ := shows.head head
      have onward := ahead p top
      omega
    | untimeout fn arg =>
      refine ⟨shows.remove near fun p r fn' arg' _ => ?_, orderly.cancel _, near.cancel _⟩
      rw [fn', arg']
    | untimeoutId id =>
      refine ⟨shows.remove near fun p r _ _ id' => ?_, orderly.cancel _, near.cancel _⟩
      rw [id']
    | hardclock =>
      refine ⟨⟨todo, free, shows.hardclock near orderly.sorted timely⟩, orderly.hardclock,
        near.hardclock orderly fun first head => ?_⟩
      obtain ⟨p, top, time⟩ := shows.head head
      have onward := timely p top
      omega
    | softclock => exact ⟨shows.softclock near, orderly.call, near.call⟩

end

section

variable [Inhabited F] [Inhabited A]

theorem startup_path {m k : Nat} (sum : k + m = n) :
    Path (startup (F := F) (A := A) n).cNext (if inside : k < n then some ⟨k, inside⟩ else none)
      ((List.finRange n).drop k) none := by
  induction m generalizing k with
  | zero =>
    obtain rfl : k = n := sum
    rw [dif_neg (Nat.lt_irrefl k), List.drop_of_length_le (by simp)]
    rfl
  | succ m ih =>
    have inside : k < n := by omega
    have here : k < (List.finRange n).length := by simpa using inside
    rw [dif_pos inside, List.drop_eq_getElem_cons here, List.getElem_finRange]
    exact ⟨rfl, ih (k := k + 1) (by omega)⟩

theorem startup_kept : Kept (startup (F := F) (A := A) n) (blank F A) := by
  refine ⟨⟨[], List.finRange n, ⟨rfl, ?_, ?_⟩, trivial, rfl, rfl, rfl⟩, Book.blank_orderly,
    Book.Near.blank⟩
  · have path := startup_path (F := F) (A := A) (Nat.zero_add n)
    rw [List.drop_zero] at path
    have first := path.head
    rw [first] at path
    exact path
  · exact List.Perm.refl _

end

/-! ## What the table shows -/

/-- What the callouts do is what the book has. -/
structure OnTime (c : Table F A n) (b : Book F A) : Prop where
  entries : c.todo.map (fun p => (c.cFunc p, c.cArg p, c.cId p)) =
    b.pending.map fun r => (r.fn, r.arg, r.id)
  remaining : c.remaining = b.pending.map fun r => r.due - b.now
  called : c.called = b.called.map fun call => (call.1.fn, call.1.arg)
  order : b.calls.Pairwise fun x y => x.due ≤ y.due
  once : ((b.calls ++ b.cancelled).map Request.serial).Perm (List.range b.made)
  prompt : ∀ call ∈ b.called, call.1.due ≤ call.2
  kept : (c.todo ++ c.free).Perm (List.finRange n)

/-- Requests for one tick are called in the order in which they were made. -/
def Book.FirstCome (b : Book F A) : Prop :=
  b.calls.Pairwise fun x y => x.due = y.due → x.serial < y.serial

theorem walk_eq {c : Table F A n} {p : Option (Fin n)} {l : List (Fin n)}
    (path : Path c.cNext p l none) {fuel : Nat} (room : l.length ≤ fuel) : c.walk fuel p = l := by
  induction l generalizing p fuel with
  | nil =>
    rw [show p = none from path]
    cases fuel <;> rfl
  | cons a l ih =>
    obtain ⟨fuel, rfl⟩ := Nat.exists_eq_add_one_of_ne_zero (n := fuel) (by simp at room; omega)
    rw [show p = some a from path.1, Table.walk, ih path.2 (by simpa using room)]

theorem Table.Matches.fields {c : Table F A n} {base : Int} {l : List (Fin n)}
    {rs : List (Request F A)} (shown : c.Matches base l rs) :
    l.map (fun p => (c.cFunc p, c.cArg p, c.cId p)) = rs.map fun r => (r.fn, r.arg, r.id) := by
  induction l generalizing base rs with
  | nil => cases rs with
    | nil => rfl
    | cons r rs => cases shown
  | cons p l ih => cases rs with
    | nil => cases shown
    | cons r rs =>
      obtain ⟨-, fn, arg, id⟩ := shown.1
      rw [List.map_cons, List.map_cons, ih shown.2, fn, arg, id]

theorem Kept.onTime {c : Table F A n} {b : Book F A} (kept : Kept c b) : OnTime c b := by
  obtain ⟨⟨todo, free, shows⟩, orderly, -⟩ := kept
  have count := shows.laid.whole.length_eq
  rw [List.length_append, List.length_finRange] at count
  have waits : c.todo = todo := walk_eq shows.laid.waits (by omega)
  have idle : c.free = free := walk_eq shows.laid.idle (by omega)
  have sums := shows.entries.sums b.now
  rw [Int.sub_self] at sums
  refine ⟨?_, ?_, shows.called, ?_, orderly.once, fun call listed => (orderly.prompt call listed).1,
    ?_⟩
  · rw [waits]
    exact shows.entries.fields
  · rw [Table.remaining, waits]
    exact sums
  · refine orderly.order.imp fun before => ?_
    rcases before with earlier | ⟨same, -⟩
    · exact le_of_lt earlier
    · exact le_of_eq same
  · rw [waits, idle]
    exact shows.laid.whole

/-- A call of `timeout` is for a tick that no pending entry has left. -/
def Table.Untied (c : Table F A n) (e : Event F A) : Prop :=
  match e with
  | .timeout _ _ t => t ∉ c.remaining
  | _ => True

def Table.untied (c : Table F A n) : Event F A → Bool
  | .timeout _ _ t => !c.remaining.contains t
  | _ => true

theorem Table.untied_iff (c : Table F A n) (e : Event F A) : c.untied e = true ↔ c.Untied e := by
  cases e <;> simp [Table.untied, Table.Untied]

instance (c : Table F A n) (e : Event F A) : Decidable (c.Untied e) :=
  decidable_of_iff _ (c.untied_iff e)

/-- No two requests are due at one tick. -/
def Book.Apart (b : Book F A) : Prop := b.calls.Pairwise fun x y => x.due ≠ y.due

namespace Book.Apart

variable {b : Book F A}

theorem firstCome (apart : b.Apart) : b.FirstCome :=
  List.Pairwise.imp (fun other same => absurd same other) apart

theorem timeout (apart : b.Apart) (orderly : b.Orderly) (fn : F) (arg : A) {t : Int}
    (t_pos : 1 ≤ t) (untied : ∀ x ∈ b.pending, t ≠ x.due - b.now) :
    (b.timeout n fn arg t).Apart := by
  unfold Book.timeout
  split
  next =>
    have same : ∀ x y : Request F A, x.due ≠ y.due → y.due ≠ x.due := fun _ _ => Ne.symm
    have moved := (List.perm_orderedInsert Request.Sooner
      (⟨fn, arg, int (b.id + 1), b.now + t, b.made⟩ : Request F A) b.pending).append_left
        (b.called.map Prod.fst)
    refine ((moved.trans List.perm_middle).pairwise_iff (fun {x y} => same x y)).mpr ?_
    refine List.pairwise_cons.mpr ⟨fun x listed => ?_, apart⟩
    rcases List.mem_append.mp listed with done | waits
    · obtain ⟨call, made, rfl⟩ := List.mem_map.mp done
      have before := orderly.prompt call made
      dsimp only
      omega
    · have other := untied x waits
      dsimp only
      omega
  next => exact apart

theorem cancel (apart : b.Apart) (hit : Request F A → Bool) : (b.cancel hit).Apart :=
  List.Pairwise.sublist (List.Sublist.append_left List.eraseP_sublist _) apart

theorem call (apart : b.Apart) : b.call.Apart := by
  unfold Book.call
  split
  next => exact apart
  next r rest pending =>
    split
    next =>
      have same : (b.called ++ [(r, b.now)]).map Prod.fst ++ rest = b.calls := by
        rw [calls, pending, List.map_append, List.append_assoc]
        rfl
      simpa only [Apart, calls, same] using apart
    next => exact apart

end Book.Apart

section

variable [DecidableEq F] [DecidableEq A]

theorem Kept.apart_step {c : Table F A n} {b : Book F A} (kept : Kept c b) (apart : b.Apart)
    {e : Event F A} (timely : c.Timely e) (untied : c.Untied e) : (b.step n e).Apart := by
  unfold Book.step
  split
  next => exact apart
  next =>
    cases e with
    | timeout fn arg t =>
      refine apart.timeout kept.orderly fn arg timely.1.1 fun x waits same => untied ?_
      rw [kept.onTime.remaining, same]
      exact List.mem_map_of_mem waits
    | untimeout fn arg => exact apart.cancel _
    | untimeoutId id => exact apart.cancel _
    | hardclock => exact apart
    | softclock => exact apart.call

variable [Inhabited F] [Inhabited A]

/-- Of two requests for one tick the later is called first, as long as no `timeout`
    finds an overdue entry. -/
theorem last_comes_first {events : List (Event F A)}
    (along : Along Table.step Table.Timely (startup (F := F) (A := A) n) events) :
    (exec (Book.step n) (blank F A) events).calls.Pairwise Request.Before := by
  have keep : ∀ (c : Table F A n) (b : Book F A) (e : Event F A), Kept c b → c.Timely e →
      Kept (c.step e) (b.step n e) := fun _ _ _ kept timely => kept.step timely
  exact (simulation keep startup_kept along).orderly.order

theorem callouts_on_time (events : List (Event F A))
    (along : Along Table.step (fun c e => c.Timely e ∧ c.Untied e)
      (startup (F := F) (A := A) n) events) :
    OnTime (exec Table.step (startup (F := F) (A := A) n) events)
        (exec (Book.step n) (blank F A) events) ∧
      (exec (Book.step n) (blank F A) events).FirstCome := by
  have keep : ∀ (c : Table F A n) (b : Book F A) (e : Event F A), Kept c b ∧ b.Apart →
      c.Timely e ∧ c.Untied e → Kept (c.step e) (b.step n e) ∧ (b.step n e).Apart :=
    fun _ _ _ both met => ⟨both.1.step met.1, both.1.apart_step both.2 met.1 met.2⟩
  have both := simulation keep ⟨startup_kept, .nil⟩ along
  exact ⟨both.1.onTime, both.2.firstCome⟩

end

/-- `softclock` is late for the first entry, others are cancelled in both ways. -/
def wellTimed : List (Event Nat Nat) :=
  [.timeout 1 10 1, .timeout 2 20 4, .timeout 3 30 2, .hardclock, .hardclock, .hardclock,
    .softclock, .softclock, .timeout 4 40 3, .untimeout 2 20, .untimeoutId 7, .hardclock]

theorem callouts_on_time_late :
    OnTime (exec Table.step (startup 3) wellTimed) (exec (Book.step 3) (blank Nat Nat) wellTimed) ∧
      (exec (Book.step 3) (blank Nat Nat) wellTimed).FirstCome :=
  callouts_on_time wellTimed (by decide)

/-- The first entry is two ticks overdue when another one is made for five ticks on. -/
def overdue : List (Event Nat Nat) :=
  [.timeout 1 10 1, .hardclock, .hardclock, .hardclock, .timeout 2 20 5]

/-- The new entry is due two ticks early. -/
theorem called_early : (∀ e ∈ overdue, Book.Later e) ∧
    (exec Table.step (startup 3) overdue).remaining = [-2, 3] ∧
    ¬ OnTime (exec Table.step (startup 3) overdue)
      (exec (Book.step 3) (blank Nat Nat) overdue) :=
  ⟨by simp [overdue, Book.Later], by decide,
    fun onTime => absurd onTime.remaining (by decide)⟩

end Irix.Callout
