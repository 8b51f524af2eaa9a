import Irix.Callout.Book
import Irix.Lib.Pointed

/-! # The table and the book

The table of callouts shows the pending requests of the book: the time of an
entry is the due time of its request less that of the request before it, or less
the present tick for the first one.
-/

namespace Irix.Callout

open Lib Lib.Pointed Function

theorem int_eq {x : Int} (low : -2 ^ 31 ≤ x) (high : x < 2 ^ 31) : int x = x :=
  Int.bmod_eq_of_le (by omega) (by omega)

variable {F A : Type} {n : Nat}

/-! ## The links -/

/-- The entries to do and the free ones are all there are. -/
structure Laid (c : Table F A n) (todo free : List (Fin n)) : Prop where
  waits : Path c.cNext c.calltodo todo none
  idle : Path c.cNext c.callfree free none
  whole : (todo ++ free).Perm (List.finRange n)

namespace Table

variable {c : Table F A n}

section

variable (c) (p x : Option (Fin n)) (t : Int)

@[simp] theorem addTime_cNext : (c.addTime p t).cNext = c.cNext := by cases p <;> rfl

@[simp] theorem addTime_calltodo : (c.addTime p t).calltodo = c.calltodo := by cases p <;> rfl

@[simp] theorem addTime_callfree : (c.addTime p t).callfree = c.callfree := by cases p <;> rfl

@[simp] theorem addTime_cFunc : (c.addTime p t).cFunc = c.cFunc := by cases p <;> rfl

@[simp] theorem addTime_cArg : (c.addTime p t).cArg = c.cArg := by cases p <;> rfl

@[simp] theorem addTime_cId : (c.addTime p t).cId = c.cId := by cases p <;> rfl

@[simp] theorem addTime_id : (c.addTime p t).id = c.id := by cases p <;> rfl

@[simp] theorem addTime_panicing : (c.addTime p t).panicing = c.panicing := by cases p <;> rfl

@[simp] theorem addTime_called : (c.addTime p t).called = c.called := by cases p <;> rfl

@[simp] theorem setNext_callfree : (c.setNext p x).callfree = c.callfree := by cases p <;> rfl

@[simp] theorem setNext_cTime : (c.setNext p x).cTime = c.cTime := by cases p <;> rfl

@[simp] theorem setNext_cFunc : (c.setNext p x).cFunc = c.cFunc := by cases p <;> rfl

@[simp] theorem setNext_cArg : (c.setNext p x).cArg = c.cArg := by cases p <;> rfl

@[simp] theorem setNext_cId : (c.setNext p x).cId = c.cId := by cases p <;> rfl

@[simp] theorem setNext_id : (c.setNext p x).id = c.id := by cases p <;> rfl

@[simp] theorem setNext_panicing : (c.setNext p x).panicing = c.panicing := by cases p <;> rfl

@[simp] theorem setNext_called : (c.setNext p x).called = c.called := by cases p <;> rfl

end

theorem addTime_here (c : Table F A n) (p : Fin n) (t : Int) :
    (c.addTime (some p) t).cTime p = int (c.cTime p + t) := update_self ..

theorem addTime_other {p : Option (Fin n)} {q : Fin n} (other : p ≠ some q) (t : Int) :
    (c.addTime p t).cTime q = c.cTime q := by
  cases p with
  | none => rfl
  | some p => exact update_of_ne (fun same => other (congrArg some same.symm)) ..

theorem setNext_other {p : Option (Fin n)} {q : Fin n} (other : p ≠ some q)
    (x : Option (Fin n)) : (c.setNext p x).cNext q = c.cNext q := by
  cases p with
  | none => rfl
  | some p => exact update_of_ne (fun same => other (congrArg some same.symm)) ..

theorem next_eq (p : Option (Fin n)) : c.next p = behind c.calltodo c.cNext p := by
  cases p <;> rfl

/-- The list is led elsewhere behind its first part. -/
theorem setNext_splits {l l' : List (Fin n)} (todo : Path c.cNext c.calltodo (l ++ l') none)
    (nodup : (l ++ l').Nodup) (x : Option (Fin n)) :
    Path (c.setNext l.getLast? x).cNext (c.setNext l.getLast? x).calltodo l x ∧
      Path (c.setNext l.getLast? x).cNext (c.next l.getLast?) l' none := by
  have parts := todo.relink nodup x
  rw [next_eq]
  cases last : l.getLast? with
  | none =>
    simp only [last] at parts
    obtain ⟨rfl, rest⟩ := parts
    exact ⟨rfl, rest⟩
  | some z =>
    simp only [last] at parts
    exact parts

/-- A free entry is linked in. -/
theorem insert_laid {l l' free : List (Fin n)} {pnew : Fin n}
    (todo : Path c.cNext c.calltodo (l ++ l') none) (rest : Path c.cNext c.callfree free none)
    (whole : (l ++ l' ++ pnew :: free).Perm (List.finRange n)) (t : Int) :
    Laid (c.insert pnew l.getLast? t) (l ++ pnew :: l') free := by
  have nodup : (l ++ l' ++ pnew :: free).Nodup := whole.nodup_iff.mpr (List.nodup_finRange n)
  obtain ⟨nodup₁, nodup₂, apart⟩ := List.nodup_append.mp nodup
  obtain ⟨fresh, -⟩ := List.nodup_cons.mp nodup₂
  have new : pnew ∉ l ++ l' := fun listed => apart pnew listed pnew (by simp) rfl
  have out : pnew ∉ l ∧ pnew ∉ l' := by simpa using new
  obtain ⟨front, behind⟩ := setNext_splits todo nodup₁ (some pnew)
  refine ⟨?_, ?_, ?_⟩
  · simp only [insert, addTime_cNext, addTime_calltodo]
    refine path_append.mpr ⟨some pnew, front.other out.1 _, rfl, ?_⟩
    rw [update_self]
    exact behind.other out.2 _
  · simp only [insert, addTime_cNext, addTime_callfree, setNext_callfree]
    refine (rest.congr fun q listed => setNext_other (fun last => ?_) _).other fresh _
    have among := List.mem_append_left l' (List.mem_of_getLast? last)
    exact apart q among q (List.mem_cons_of_mem _ listed) rfl
  · refine List.Perm.trans ?_ whole
    simp only [List.append_assoc, List.cons_append]
    exact List.Perm.append_left _ List.perm_middle.symm

/-- An entry is linked out and freed. -/
theorem unlink_laid {l l' free : List (Fin n)} {p : Fin n} (laid : Laid c (l ++ p :: l') free) :
    Laid (c.unlink l.getLast? p) (l ++ l') (p :: free) := by
  have nodup : (l ++ p :: l' ++ free).Nodup := laid.whole.nodup_iff.mpr (List.nodup_finRange n)
  obtain ⟨nodup₁, -, apart⟩ := List.nodup_append.mp nodup
  have out : p ∉ l ++ l' := (List.nodup_cons.mp (List.perm_middle.nodup_iff.mp nodup₁)).1
  have out' : p ∉ l ∧ p ∉ l' := by simpa using out
  have away : p ∉ free := fun listed => apart p (by simp) p listed rfl
  obtain ⟨front, here, behind⟩ := setNext_splits laid.waits nodup₁ (c.cNext p)
  have next : (c.setNext l.getLast? (c.cNext p)).cNext p = c.cNext p :=
    setNext_other (fun last => out'.1 (List.mem_of_getLast? last)) _
  have links : ((c.addTime (c.cNext p) (c.cTime p)).setNext l.getLast? (c.cNext p)).cNext =
      (c.setNext l.getLast? (c.cNext p)).cNext := by
    cases l.getLast? <;> simp [setNext]
  have first : ((c.addTime (c.cNext p) (c.cTime p)).setNext l.getLast? (c.cNext p)).calltodo =
      (c.setNext l.getLast? (c.cNext p)).calltodo := by
    cases l.getLast? <;> simp [setNext]
  refine ⟨?_, ?_, ?_⟩
  · simp only [unlink, release, links, first]
    rw [next] at behind
    exact path_append.mpr ⟨c.cNext p, front.other out'.1 _, behind.other out'.2 _⟩
  · simp only [unlink, release, links, setNext_callfree, addTime_callfree, path_cons, update_self,
      true_and]
    refine (laid.idle.congr fun q listed => setNext_other (fun last => ?_) _).other away _
    have among := List.mem_append_left (p :: l') (List.mem_of_getLast? last)
    exact apart q among q listed rfl
  · refine List.Perm.trans ?_ laid.whole
    simp only [List.append_assoc, List.cons_append]
    refine List.Perm.append_left _ ?_
    exact List.perm_middle

end Table

/-! ## The entries -/

/-- The entries hold the requests, the first of them due `base` and the time of the
    entry. -/
def Table.Matches (c : Table F A n) : Int → List (Fin n) → List (Request F A) → Prop
  | _, [], [] => True
  | base, p :: l, r :: rs =>
    (c.cTime p = r.due - base ∧ c.cFunc p = r.fn ∧ c.cArg p = r.arg ∧ c.cId p = r.id) ∧
      Matches c r.due l rs
  | _, _, _ => False

/-- The due time of the last request. -/
def lastDue (base : Int) (rs : List (Request F A)) : Int := rs.foldl (fun _ r => r.due) base

theorem lastDue_eq (base : Int) (rs : List (Request F A)) :
    (rs = [] ∧ lastDue base rs = base) ∨ ∃ r ∈ rs, lastDue base rs = r.due := by
  induction rs generalizing base with
  | nil => exact .inl ⟨rfl, rfl⟩
  | cons r rs ih =>
    refine .inr ?_
    rcases ih r.due with ⟨rfl, last⟩ | ⟨x, listed, last⟩
    · exact ⟨r, List.mem_cons_self .., last⟩
    · exact ⟨x, List.mem_cons_of_mem _ listed, last⟩

namespace Table

variable {c c' : Table F A n} {base : Int} {l l' : List (Fin n)} {rs rs' : List (Request F A)}

theorem Matches.length (shown : c.Matches base l rs) : l.length = rs.length := by
  induction l generalizing base rs with
  | nil => cases rs with
    | nil => rfl
    | cons r rs => cases shown
  | cons p l ih => cases rs with
    | nil => cases shown
    | cons r rs => exact congrArg Nat.succ (ih shown.2)

theorem Matches.congr (shown : c.Matches base l rs)
    (same : ∀ p ∈ l, c'.cTime p = c.cTime p ∧ c'.cFunc p = c.cFunc p ∧ c'.cArg p = c.cArg p ∧
      c'.cId p = c.cId p) : c'.Matches base l rs := by
  induction l generalizing base rs with
  | nil => cases rs with
    | nil => trivial
    | cons r rs => cases shown
  | cons p l ih => cases rs with
    | nil => cases shown
    | cons r rs =>
      obtain ⟨time, fn, arg, id⟩ := same p (List.mem_cons_self ..)
      refine ⟨?_, ih shown.2 fun q listed => same q (List.mem_cons_of_mem _ listed)⟩
      rw [time, fn, arg, id]
      exact shown.1

theorem matches_append :
    c.Matches base l (rs ++ rs') ↔
      ∃ l₁ l₂, l = l₁ ++ l₂ ∧ c.Matches base l₁ rs ∧ c.Matches (lastDue base rs) l₂ rs' := by
  induction rs generalizing base l with
  | nil =>
    constructor
    · exact fun shown => ⟨[], l, rfl, trivial, shown⟩
    · rintro ⟨l₁, l₂, rfl, front, rest⟩
      rw [List.length_eq_zero_iff.mp front.length]
      exact rest
  | cons r rs ih =>
    constructor
    · intro shown
      cases l with
      | nil => cases shown
      | cons p l =>
        obtain ⟨l₁, l₂, rfl, front, rest⟩ := ih.mp shown.2
        exact ⟨p :: l₁, l₂, rfl, ⟨shown.1, front⟩, rest⟩
    · rintro ⟨l₁, l₂, rfl, front, rest⟩
      cases l₁ with
      | nil => cases front
      | cons p l₁ => exact ⟨front.1, ih.mpr ⟨l₁, l₂, rfl, front.2, rest⟩⟩

theorem Matches.sums (shown : c.Matches base l rs) (now : Int) :
    c.sums (base - now) l = rs.map fun r => r.due - now := by
  induction l generalizing base rs with
  | nil => cases rs with
    | nil => rfl
    | cons r rs => cases shown
  | cons p l ih => cases rs with
    | nil => cases shown
    | cons r rs =>
      have here : base - now + c.cTime p = r.due - now := by
        rw [shown.1.1]
        omega
      rw [Table.sums, here, ih shown.2, List.map_cons]

/-- The head of the rest gets its time from another base. -/
theorem Matches.rebase (shown : c.Matches base l rs) {base' : Int} {p : Option (Fin n)}
    (head : p = l.head?) (nodup : l.Nodup) (fits : ∀ r ∈ rs, int (r.due - base') = r.due - base') :
    (c.addTime p (base - base')).Matches base' l rs := by
  cases l with
  | nil => cases rs with
    | nil => trivial
    | cons r rs => cases shown
  | cons q l => cases rs with
    | nil => cases shown
    | cons r rs =>
      obtain rfl : p = some q := head
      obtain ⟨fresh, -⟩ := List.nodup_cons.mp nodup
      refine ⟨⟨?_, shown.1.2⟩, shown.2.congr fun x listed => ⟨?_, rfl, rfl, rfl⟩⟩
      · have time : r.due - base + (base - base') = r.due - base' := by omega
        rw [addTime_here, shown.1.1, time]
        exact fits r (List.mem_cons_self ..)
      · exact addTime_other
          (fun same => ne_of_mem_of_not_mem listed fresh (Option.some.inj same).symm) _

/-- The loop of `timeout` stops behind the requests due before the new one. -/
theorem position_eq {pre post : List (Request F A)} {r : Request F A} (fuel : Nat)
    (p1 : Option (Fin n)) {t : Int} (links : Path c.cNext (c.next p1) (l ++ l') none)
    (front : c.Matches base l pre) (behind : c.Matches (lastDue base pre) l' post)
    (room : (l ++ l').length ≤ fuel) (forward : ∀ p ∈ l, 0 ≤ c.cTime p) (due : t = r.due - base)
    (before : ∀ x ∈ pre, x.due < r.due) (after : ∀ x ∈ post, r.due ≤ x.due) (low : 0 ≤ t)
    (high : t < 2 ^ 31) :
    c.position fuel p1 t = (l.getLast?.or p1, r.due - lastDue base pre) := by
  induction l generalizing base pre fuel p1 t with
  | nil =>
    obtain rfl : pre = [] := List.length_eq_zero_iff.mp front.length.symm
    cases fuel with
    | zero => rw [position, due]; rfl
    | succ fuel =>
      cases l' with
      | nil =>
        rw [position, show c.next p1 = none from links, due]
        rfl
      | cons p l' => cases post with
        | nil => cases behind
        | cons x post =>
          have later := after x (List.mem_cons_self ..)
          have time : c.cTime p = x.due - base := behind.1.1
          have stop : ¬ c.cTime p < t := by omega
          rw [position, show c.next p1 = some p from links.1]
          dsimp only
          rw [if_neg stop, due]
          rfl
  | cons p l ih => cases pre with
    | nil => cases front
    | cons x pre =>
      cases fuel with
      | zero => simp at room
      | succ fuel =>
        have time : c.cTime p = x.due - base := front.1.1
        have sooner := before x (List.mem_cons_self ..)
        have onward := forward p (List.mem_cons_self ..)
        have go : c.cTime p < t := by omega
        have left : (if 0 < c.cTime p then int (t - c.cTime p) else t) = r.due - x.due := by
          split
          · rw [int_eq (by omega) (by omega)]
            omega
          · omega
        rw [position, show c.next p1 = some p from links.1]
        dsimp only
        rw [if_pos go, left]
        have rest := ih fuel (some p) (t := r.due - x.due) links.2 front.2 behind
          (by simpa using room) (fun q listed => forward q (List.mem_cons_of_mem _ listed)) rfl
          (fun y listed => before y (List.mem_cons_of_mem _ listed)) (by omega) (by omega)
        rw [rest, List.getLast?_cons, Option.or_some]
        cases l.getLast? <;> rfl

/-- The search of `untimeout` finds the first entry that is looked for. -/
theorem search_eq {hit : Fin n → Bool} {fuel : Nat} (p1 : Option (Fin n)) {p : Fin n}
    (links : Path c.cNext (c.next p1) (l ++ p :: l') none) (before : ∀ q ∈ l, hit q = false)
    (found : hit p = true) (room : l.length < fuel) :
    c.search hit fuel p1 = some (l.getLast?.or p1, p) := by
  induction l generalizing fuel p1 with
  | nil =>
    obtain ⟨fuel, rfl⟩ := Nat.exists_eq_add_one_of_ne_zero (by omega : fuel ≠ 0)
    rw [search, show c.next p1 = some p from links.1]
    simp [found]
  | cons q l ih =>
    obtain ⟨fuel, rfl⟩ := Nat.exists_eq_add_one_of_ne_zero (by omega : fuel ≠ 0)
    rw [search, show c.next p1 = some q from links.1]
    have missed := before q (List.mem_cons_self ..)
    have rest := ih (some q) links.2
      (fun x listed => before x (List.mem_cons_of_mem _ listed)) (by simpa using room)
    simp only [missed, Bool.false_eq_true, if_false, rest, List.getLast?_cons, Option.or_some]
    cases l.getLast? <;> rfl

theorem search_none {hit : Fin n → Bool} (fuel : Nat) (p1 : Option (Fin n))
    (links : Path c.cNext (c.next p1) l none) (missed : ∀ q ∈ l, hit q = false) :
    c.search hit fuel p1 = none := by
  induction l generalizing fuel p1 with
  | nil =>
    cases fuel with
    | zero => rfl
    | succ fuel => rw [search, show c.next p1 = none from links]
  | cons q l ih =>
    cases fuel with
    | zero => rfl
    | succ fuel =>
      rw [search, show c.next p1 = some q from links.1]
      have other := missed q (List.mem_cons_self ..)
      simp only [other, Bool.false_eq_true, if_false]
      exact ih fuel (some q) links.2 fun x listed => missed x (List.mem_cons_of_mem _ listed)

/-- What the requests tell of a hit, the entries tell. -/
theorem Matches.hits {hit : Fin n → Bool} {wanted : Request F A → Bool}
    (shown : c.Matches base l rs)
    (agree : ∀ p r, c.cFunc p = r.fn → c.cArg p = r.arg → c.cId p = r.id → hit p = wanted r)
    (missed : ∀ r ∈ rs, wanted r = false) : ∀ p ∈ l, hit p = false := by
  induction l generalizing base rs with
  | nil => simp
  | cons p l ih => cases rs with
    | nil => cases shown
    | cons r rs =>
      intro q listed
      rcases List.mem_cons.mp listed with rfl | listed
      · obtain ⟨-, fn, arg, id⟩ := shown.1
        rw [agree q r fn arg id]
        exact missed r (List.mem_cons_self ..)
      · exact ih shown.2 (fun r listed => missed r (List.mem_cons_of_mem _ listed)) q listed

theorem Matches.forward (shown : c.Matches base l rs) (sorted : rs.Pairwise Request.Sooner)
    (ahead : ∀ r ∈ rs.head?, base ≤ r.due) : ∀ p ∈ l, 0 ≤ c.cTime p := by
  induction l generalizing base rs with
  | nil => simp
  | cons p l ih => cases rs with
    | nil => cases shown
    | cons r rs =>
      obtain ⟨first, rest⟩ := List.pairwise_cons.mp sorted
      intro q listed
      rcases List.mem_cons.mp listed with rfl | listed
      · rw [shown.1.1]
        exact Int.sub_nonneg.mpr (ahead r rfl)
      · exact ih shown.2 rest (fun x head => first x (List.mem_of_head? head)) q listed

theorem next_getLast (links : Path c.cNext c.calltodo (l ++ l') none) :
    c.next l.getLast? = l'.head? := by
  rw [next_eq]
  exact links.behind_getLast.head

/-- A new entry is taken from the free list. -/
def fill (c : Table F A n) (pnew : Fin n) (fn : F) (arg : A) : Table F A n :=
  { c with
    callfree := c.cNext pnew
    cArg := update c.cArg pnew arg
    cFunc := update c.cFunc pnew fn }

theorem timeout_none (full : c.callfree = none) (fn : F) (arg : A) (t : Int) :
    c.timeout fn arg t = none := by
  simp only [timeout, full]

theorem timeout_some {pnew : Fin n} (first : c.callfree = some pnew) {t : Int} (t_ne : t ≠ 0)
    (fn : F) (arg : A) :
    ((c.timeout fn arg t).map Prod.fst).getD { c with panicing := true } =
      (c.fill pnew fn arg).insert pnew ((c.fill pnew fn arg).position n none t).1
        ((c.fill pnew fn arg).position n none t).2 := by
  simp only [timeout, first, if_neg t_ne]
  rfl

section

variable (c) (pnew : Fin n) (p : Option (Fin n)) (t : Int)

@[simp] theorem insert_id : (c.insert pnew p t).id = int (c.id + 1) := by simp [insert]

@[simp] theorem insert_panicing : (c.insert pnew p t).panicing = c.panicing := by simp [insert]

@[simp] theorem insert_called : (c.insert pnew p t).called = c.called := by simp [insert]

end

/-- The entries after one is put in for a request `r`. -/
theorem insert_matches {pre post : List (Request F A)} {r : Request F A} {pnew : Fin n}
    (links : Path c.cNext c.calltodo (l ++ l') none) (nodup : (l ++ l').Nodup)
    (new : pnew ∉ l ++ l') (front : c.Matches base l pre)
    (behind : c.Matches (lastDue base pre) l' post) (fn : c.cFunc pnew = r.fn)
    (arg : c.cArg pnew = r.arg) (id : int (c.id + 1) = r.id)
    (fits : ∀ x ∈ post, int (x.due - r.due) = x.due - r.due) :
    (c.insert pnew l.getLast? (r.due - lastDue base pre)).Matches base (l ++ pnew :: l')
      (pre ++ r :: post) := by
  obtain ⟨-, nodup', apart⟩ := List.nodup_append.mp nodup
  have out : pnew ∉ l ∧ pnew ∉ l' := by simpa using new
  have next := next_getLast links
  have other : ∀ q ∉ l', c.next l.getLast? ≠ some q := by
    rw [next]
    exact fun q away head => away (List.mem_of_head? head)
  have step : -(r.due - lastDue base pre) = lastDue base pre - r.due := by omega
  refine matches_append.mpr ⟨l, pnew :: l', rfl, front.congr fun q listed => ?_, ⟨?_, ?_⟩⟩
  · have away : q ≠ pnew := ne_of_mem_of_not_mem listed out.1
    have behind : q ∉ l' := fun late => apart q listed q late rfl
    simp only [insert, addTime_other (other q behind), addTime_cFunc, addTime_cArg, addTime_cId,
      update_of_ne away, setNext_cTime, setNext_cFunc, setNext_cArg, setNext_cId, and_self]
  · simp only [insert, addTime_other (other pnew out.2), addTime_cFunc, addTime_cArg, addTime_cId,
      update_self, setNext_cFunc, setNext_cArg, setNext_id]
    exact ⟨trivial, fn, arg, id⟩
  · simp only [insert, step]
    refine Matches.rebase (behind.congr fun q listed => ?_) next nodup' fits
    have away : q ≠ pnew := ne_of_mem_of_not_mem listed out.2
    simp only [update_of_ne away, setNext_cTime, setNext_cFunc, setNext_cArg, setNext_cId, and_self]

/-- The entries after the one for a request `r` is taken out. -/
theorem unlink_matches {pre post : List (Request F A)} {r : Request F A} {p : Fin n}
    (links : Path c.cNext c.calltodo (l ++ p :: l') none) (nodup : (l ++ p :: l').Nodup)
    (front : c.Matches base l pre) (behind : c.Matches (lastDue base pre) (p :: l') (r :: post))
    (fits : ∀ x ∈ post, int (x.due - lastDue base pre) = x.due - lastDue base pre) :
    (c.unlink l.getLast? p).Matches base (l ++ l') (pre ++ post) := by
  obtain ⟨-, nodup', apart⟩ := List.nodup_append.mp nodup
  obtain ⟨m, -, here, after⟩ := path_append.mp links
  have next : c.cNext p = l'.head? := Path.head after
  have other : ∀ q ∉ l', c.cNext p ≠ some q := by
    rw [next]
    exact fun q away head => away (List.mem_of_head? head)
  refine matches_append.mpr ⟨l, l', rfl, front.congr fun q listed => ?_, ?_⟩
  · have away : q ∉ l' := fun late => apart q listed q (List.mem_cons_of_mem _ late) rfl
    simp only [unlink, release, setNext_cTime, setNext_cFunc, setNext_cArg, setNext_cId,
      addTime_other (other q away), addTime_cFunc, addTime_cArg, addTime_cId, and_self]
  · have moved := behind.2.rebase next (List.nodup_cons.mp nodup').2 fits
    rw [← behind.1.1] at moved
    refine moved.congr fun q listed => ?_
    simp only [unlink, release, setNext_cTime, setNext_cFunc, setNext_cArg, setNext_cId, and_self]

end Table

/-! ## The simulation -/

/-- The table shows the book. -/
structure Shows (c : Table F A n) (b : Book F A) (todo free : List (Fin n)) : Prop where
  laid : Laid c todo free
  entries : c.Matches b.now todo b.pending
  id : c.id = b.id
  stopped : c.panicing = b.stopped
  called : c.called = b.called.map fun call => (call.1.fn, call.1.arg)

/-- The times fit in an `int`. -/
structure Book.Near (b : Book F A) : Prop where
  low : ∀ x ∈ b.pending, -2 ^ 31 ≤ x.due - b.now
  high : ∀ x ∈ b.pending, x.due - b.now < 2 ^ 31
  spread : ∀ x ∈ b.pending, ∀ y ∈ b.pending, y.due - x.due < 2 ^ 31

/-- A call of `timeout` finds no entry overdue, and the time of an overdue entry is
    not decremented below the least `int`. -/
def Table.Timely (c : Table F A n) (e : Event F A) : Prop :=
  match e with
  | .timeout _ _ t => (1 ≤ t ∧ t < 2 ^ 31) ∧ ∀ p ∈ c.calltodo, 0 ≤ c.cTime p
  | .hardclock => ∀ p ∈ c.calltodo, -2 ^ 31 < c.cTime p
  | _ => True

instance (c : Table F A n) (e : Event F A) : Decidable (c.Timely e) := by
  unfold Table.Timely
  split <;> infer_instance

namespace Shows

variable {c : Table F A n} {b : Book F A} {todo free : List (Fin n)}

theorem nodup (shows : Shows c b todo free) : (todo ++ free).Nodup :=
  shows.laid.whole.nodup_iff.mpr (List.nodup_finRange n)

theorem length (shows : Shows c b todo free) : b.pending.length + free.length = n := by
  have count := shows.laid.whole.length_eq
  rw [List.length_append, List.length_finRange, shows.entries.length] at count
  exact count

/-- The first request has the time of the first entry left. -/
theorem head (shows : Shows c b todo free) {r : Request F A} (first : b.pending.head? = some r) :
    ∃ p ∈ c.calltodo, c.cTime p = r.due - b.now := by
  have entries := shows.entries
  cases todo with
  | nil => cases pending : b.pending with
    | nil => simp [pending] at first
    | cons x rs =>
      rw [pending] at entries
      cases entries
  | cons p l => cases pending : b.pending with
    | nil => simp [pending] at first
    | cons x rs =>
      rw [pending] at entries first
      obtain rfl : x = r := Option.some.inj first
      exact ⟨p, shows.laid.waits.1, entries.1.1⟩

theorem timeout (shows : Shows c b todo free) (orderly : b.Orderly) (near : b.Near) (fn : F)
    (arg : A) {t : Int} (t_pos : 1 ≤ t) (t_lt : t < 2 ^ 31)
    (ahead : ∀ p ∈ c.calltodo, 0 ≤ c.cTime p) :
    ∃ todo' free', Shows (((c.timeout fn arg t).map Prod.fst).getD { c with panicing := true })
      (b.timeout n fn arg t) todo' free' := by
  have count := shows.length
  have first := shows.laid.idle.head
  cases free with
  | nil =>
    have full : ¬ b.pending.length < n := by simpa using Nat.le_of_eq count.symm
    rw [Table.timeout_none first, Book.timeout, if_neg full]
    exact ⟨todo, [], ⟨⟨shows.laid.waits, shows.laid.idle, shows.laid.whole⟩,
      shows.entries.congr fun _ _ => ⟨rfl, rfl, rfl, rfl⟩, shows.id, rfl, shows.called⟩⟩
  | cons pnew rest =>
    have room : b.pending.length < n := by
      simp only [List.length_cons] at count
      omega
    rw [Table.timeout_some first (by omega), Book.timeout, if_pos room]
    dsimp only
    generalize new : (⟨fn, arg, int (b.id + 1), b.now + t, b.made⟩ : Request F A) = r
    obtain ⟨pre, post, pending, inserted, before, behind⟩ := orderedInsert_splits orderly.sorted r
    have entries := shows.entries
    have sooner := shows.laid.waits
    have due : t = r.due - b.now := by
      rw [← new]
      show t = b.now + t - b.now
      omega
    have forward := entries.forward orderly.sorted fun x head => by
      obtain ⟨p, top, time⟩ := shows.head head
      have onward := ahead p top
      omega
    rw [pending, Table.matches_append] at entries
    obtain ⟨l, l', rfl, front, back⟩ := entries
    obtain ⟨nodup, -, apart⟩ := List.nodup_append.mp shows.nodup
    have fresh : pnew ∉ l ++ l' := fun listed => apart pnew listed pnew (List.mem_cons_self ..) rfl
    have same : ∀ q ∈ l ++ l', (c.fill pnew fn arg).cTime q = c.cTime q ∧
        (c.fill pnew fn arg).cFunc q = c.cFunc q ∧ (c.fill pnew fn arg).cArg q = c.cArg q ∧
        (c.fill pnew fn arg).cId q = c.cId q := by
      intro q listed
      have other := ne_of_mem_of_not_mem listed fresh
      exact ⟨rfl, update_of_ne other .., update_of_ne other .., rfl⟩
    have front' := front.congr fun q listed => same q (List.mem_append_left _ listed)
    have back' := back.congr fun q listed => same q (List.mem_append_right _ listed)
    have short : (l ++ l').length ≤ n := by
      have whole := shows.laid.whole.length_eq
      rw [List.length_append, List.length_finRange] at whole
      omega
    have place := Table.position_eq (c := c.fill pnew fn arg) n none sooner front' back' short
      (fun q listed => forward q (List.mem_append_left _ listed)) due before behind (by omega) t_lt
    have idle := shows.laid.idle
    rw [place, Option.or_none, inserted]
    refine ⟨l ++ pnew :: l', rest, Table.insert_laid (c := c.fill pnew fn arg) sooner idle.2
      shows.laid.whole _, ?_, ?_, ?_, ?_⟩
    · refine Table.insert_matches sooner nodup fresh front' back' ?_ ?_ ?_ fun x listed => ?_
      · rw [← new]
        exact update_self ..
      · rw [← new]
        exact update_self ..
      · rw [← new, ← shows.id]
        rfl
      · have late := behind x listed
        have soon := near.high x (by rw [pending]; exact List.mem_append_right _ listed)
        exact int_eq (by omega) (by omega)
    · rw [Table.insert_id, ← shows.id]
      rfl
    · rw [Table.insert_panicing]
      exact shows.stopped
    · rw [Table.insert_called]
      exact shows.called

theorem hardclock (shows : Shows c b todo free) (near : b.Near)
    (sorted : b.pending.Pairwise Request.Sooner)
    (ahead : ∀ p ∈ c.calltodo, -2 ^ 31 < c.cTime p) :
    Shows c.hardclock { b with now := b.now + 1 } todo free := by
  have step : (-1 : Int) = b.now - (b.now + 1) := by omega
  have nodup := (List.nodup_append.mp shows.nodup).1
  have fits : ∀ r ∈ b.pending, int (r.due - (b.now + 1)) = r.due - (b.now + 1) := by
    intro r listed
    have soon := near.high r listed
    have low : -2 ^ 31 < r.due - b.now := by
      cases pending : b.pending with
      | nil =>
        rw [pending] at listed
        cases listed
      | cons first rest =>
        obtain ⟨p, top, time⟩ := shows.head (r := first) (by rw [pending]; rfl)
        have onward := ahead p top
        rw [pending] at sorted listed
        rcases List.mem_cons.mp listed with rfl | later
        · omega
        · have before : first.due ≤ r.due := (List.pairwise_cons.mp sorted).1 r later
          omega
    exact int_eq (by omega) (by omega)
  refine ⟨⟨?_, ?_, shows.laid.whole⟩, ?_, ?_, ?_, ?_⟩
  · simpa [Table.hardclock] using shows.laid.waits
  · simpa [Table.hardclock] using shows.laid.idle
  · rw [Table.hardclock, step]
    exact shows.entries.rebase shows.laid.waits.head nodup fits
  · simpa [Table.hardclock] using shows.id
  · simpa [Table.hardclock] using shows.stopped
  · simpa [Table.hardclock] using shows.called

/-- The entry of a pending request, and what is left without it. -/
theorem split (shows : Shows c b todo free) (near : b.Near) {pre post : List (Request F A)}
    {r : Request F A} (pending : b.pending = pre ++ r :: post) :
    ∃ l p l', todo = l ++ p :: l' ∧ c.Matches b.now l pre ∧
      (c.cTime p = r.due - lastDue b.now pre ∧ c.cFunc p = r.fn ∧ c.cArg p = r.arg ∧
        c.cId p = r.id) ∧
      Laid (c.unlink l.getLast? p) (l ++ l') (p :: free) ∧
      (c.unlink l.getLast? p).Matches b.now (l ++ l') (pre ++ post) := by
  have entries := shows.entries
  rw [pending, Table.matches_append] at entries
  obtain ⟨l, rest, rfl, front, back⟩ := entries
  cases rest with
  | nil => cases back
  | cons p l' =>
    have nodup := (List.nodup_append.mp shows.nodup).1
    refine ⟨l, p, l', rfl, front, back.1, Table.unlink_laid shows.laid,
      Table.unlink_matches shows.laid.waits nodup front back fun x listed => ?_⟩
    have among : x ∈ b.pending := by
      rw [pending]
      exact List.mem_append_right _ (List.mem_cons_of_mem _ listed)
    rcases lastDue_eq b.now pre with ⟨-, last⟩ | ⟨y, before, last⟩
    · rw [last]
      exact int_eq (near.low x among) (near.high x among)
    · rw [last]
      have among' : y ∈ b.pending := by
        rw [pending]
        exact List.mem_append_left _ before
      have up := near.spread y among' x among
      have down := near.spread x among y among'
      exact int_eq (by omega) up

theorem softclock (shows : Shows c b todo free) (near : b.Near) :
    ∃ todo' free', Shows c.softclock b.call todo' free' := by
  cases pending : b.pending with
  | nil =>
    have entries := shows.entries.length
    rw [pending, List.length_nil, List.length_eq_zero_iff] at entries
    have none := shows.laid.waits.head
    rw [entries] at none
    refine ⟨todo, free, ?_⟩
    simp only [Table.softclock, none, List.head?_nil, Book.call, pending]
    exact shows
  | cons r post =>
    obtain ⟨l, p, l', rfl, front, here, laid, rest⟩ := shows.split near (show b.pending = [] ++ r :: post from pending)
    obtain rfl : l = [] := List.length_eq_zero_iff.mp front.length
    have first : c.calltodo = some p := shows.laid.waits.1
    have time : c.cTime p = r.due - b.now := here.1
    have called := shows.called
    by_cases due : 0 < c.cTime p
    · have later : ¬ r.due ≤ b.now := by omega
      refine ⟨p :: l', free, ?_⟩
      simp only [Table.softclock, first, if_pos due, Book.call, pending, if_neg later]
      exact shows
    · have reached : r.due ≤ b.now := by omega
      have moved : c.softclock = { c.unlink none p with called := c.called ++ [(r.fn, r.arg)] } := by
        rw [← here.2.1, ← here.2.2.1]
        simp only [Table.softclock, first, if_neg due, Table.unlink]
        cases c.cNext p <;> rfl
      rw [moved]
      refine ⟨l', p :: free, ?_⟩
      simp only [Book.call, pending, if_pos reached]
      refine ⟨⟨laid.waits, laid.idle, laid.whole⟩, rest.congr fun _ _ => ⟨rfl, rfl, rfl, rfl⟩,
        ?_, ?_, ?_⟩
      · simpa [Table.unlink, Table.release] using shows.id
      · simpa [Table.unlink, Table.release] using shows.stopped
      · simp [called]

theorem remove (shows : Shows c b todo free) (near : b.Near) {hit : Fin n → Bool}
    {wanted : Request F A → Bool}
    (agree : ∀ p r, c.cFunc p = r.fn → c.cArg p = r.arg → c.cId p = r.id → hit p = wanted r) :
    ∃ todo' free', Shows (c.remove hit) (b.cancel wanted) todo' free' := by
  rcases find_splits b.pending wanted with ⟨-, kept, missed⟩ | ⟨pre, r, post, pending, -, erased,
    before, found⟩
  · have missing := Table.search_none (c := c) n none shows.laid.waits
      (shows.entries.hits agree missed)
    refine ⟨todo, free, ?_⟩
    rw [Table.remove, missing]
    refine ⟨shows.laid, ?_, shows.id, shows.stopped, shows.called⟩
    simp only [Book.cancel, kept]
    exact shows.entries
  · obtain ⟨l, p, l', rfl, front, here, laid, rest⟩ := shows.split near pending
    have short : l.length < n := by
      have whole := shows.laid.whole.length_eq
      simp only [List.length_append, List.length_cons, List.length_finRange] at whole
      omega
    have search := Table.search_eq (c := c) none shows.laid.waits (front.hits agree before)
      ((agree p r here.2.1 here.2.2.1 here.2.2.2).trans found) short
    rw [Option.or_none] at search
    refine ⟨l ++ l', p :: free, ?_⟩
    rw [Table.remove, search]
    refine ⟨laid, ?_, ?_, ?_, ?_⟩
    · simp only [Book.cancel, erased]
      exact rest
    · simpa [Table.unlink, Table.release, Book.cancel] using shows.id
    · simpa [Table.unlink, Table.release, Book.cancel] using shows.stopped
    · simpa [Table.unlink, Table.release, Book.cancel] using shows.called

end Shows

end Irix.Callout
