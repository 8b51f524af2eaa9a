import Irix.Chunk.Alloc

/-! # No chunk is handed out twice

A call owns the chunks that it has marked.  As long as it marks free chunks only,
and gets frames for unassigned pages only, its chunks are its own and its pages
stay as it has found them.
-/

namespace Irix.Chunk

open Lib Lib.Run Function

/-- The chunks a call has marked: the first one, and how many. -/
def Call.range (c : Call) : Nat × Nat :=
  match c.phase with
  | .scan _ _ _ | .found _ _ _ _ => (0, 0)
  | .mark addr k => (addr, k)
  | .assign addr _ | .want addr _ | .gotten addr _ | .live addr _ => (addr, c.len)

/-- The frames of the pages a call has been through. -/
def Call.seen (c : Call) : List Nat :=
  match c.phase with
  | .scan _ _ _ | .found _ _ _ _ | .mark _ _ => []
  | .assign _ seen | .want _ seen | .gotten _ seen | .live _ seen => seen

/-- A call owns a chunk. -/
def Call.Owns (c : Call) (x : Nat) : Prop := c.range.1 ≤ x ∧ x < c.range.1 + c.range.2

/-- What a page has to be while a call has a chunk of it and has been through it. -/
def Call.Backed (c : Call) (pt : Nat → Pte) : Prop :=
  ∀ x, c.Owns x → ∀ pfnum, c.seen[chunkToPage x - chunkToPage c.range.1]? = some pfnum →
    pt (chunkToPage x) = ⟨pfnum, true⟩

/-- The invariant of the allocator. -/
structure Sound (maxchunks : Nat) (s : State) : Prop where
  marked : ∀ id c x, s.calls id = some c → c.Owns x → s.bitmap x = true
  apart : ∀ i j c d x, s.calls i = some c → s.calls j = some d → c.Owns x → d.Owns x → i = j
  inside : ∀ id c x, s.calls id = some c → c.Owns x → x < maxchunks
  backed : ∀ id c, s.calls id = some c → c.Backed s.pt
  few : ∀ id c addr k, s.calls id = some c → c.phase = .mark addr k → k ≤ c.len
  whole : ∀ id c addr seen, s.calls id = some c → c.phase = .live addr seen →
    c.pages addr ≤ seen.length

/-- A step marks only a free chunk of the pool, and writes a frame only into the
    entry of an unassigned page. -/
def State.Keeps (maxchunks : Nat) (s : State) (e : Event) : Prop :=
  match e with
  | .run id m =>
    match s.calls id with
    | some c =>
      match c.phase, m with
      | .mark addr k, _ => k < c.len → s.bitmap (addr + k) = false ∧ addr + k < maxchunks
      | .want addr seen, .frame _ => s.pt (chunkToPage addr + seen.length) = ⟨0, false⟩
      | _, _ => True
    | none => True
  | _ => True

instance (maxchunks : Nat) (s : State) (e : Event) : Decidable (s.Keeps maxchunks e) := by
  unfold State.Keeps
  split
  · split
    · split <;> infer_instance
    · infer_instance
  · infer_instance

section

variable {maxchunks : Nat} {s s' : State} {id : Nat} {c c' : Call}

theorem Sound.unlock (sound : Sound maxchunks s) {spl6 : Option Nat} :
    Sound maxchunks { s with spl6 := spl6 } :=
  ⟨sound.marked, sound.apart, sound.inside, sound.backed, sound.few, sound.whole⟩

/-! ## Steps of one call -/

/-- A chunk is one the call has had, or a free one that it has just marked. -/
def Gets (maxchunks : Nat) (s s' : State) (id x : Nat) : Prop :=
  (∃ e, s.calls id = some e ∧ e.Owns x) ∨
    s.bitmap x = false ∧ x < maxchunks ∧ s'.bitmap x = true

/-- A call goes on; no chunk is freed and no valid entry changed. -/
theorem Sound.replace (sound : Sound maxchunks s)
    (calls : s'.calls = update s.calls id (some c'))
    (bitmap : ∀ x, s.bitmap x = true → s'.bitmap x = true)
    (pt : ∀ p, (s.pt p).v = true → s'.pt p = s.pt p)
    (gets : ∀ x, c'.Owns x → Gets maxchunks s s' id x) (backed : c'.Backed s'.pt)
    (few : ∀ addr k, c'.phase = .mark addr k → k ≤ c'.len)
    (whole : ∀ addr seen, c'.phase = .live addr seen → c'.pages addr ≤ seen.length) :
    Sound maxchunks s' := by
  have old : ∀ {i d}, s'.calls i = some d → (i = id ∧ d = c') ∨ s.calls i = some d := by
    intro i d there
    rw [calls] at there
    by_cases same : i = id
    · subst same
      rw [update_self] at there
      exact .inl ⟨rfl, (Option.some.inj there).symm⟩
    · rw [update_of_ne same] at there
      exact .inr there
  have owned : ∀ {i d x}, s'.calls i = some d → d.Owns x → Gets maxchunks s s' i x := by
    intro i d x there own
    rcases old there with ⟨rfl, rfl⟩ | there
    · exact gets x own
    · exact .inl ⟨d, there, own⟩
  have newer : ∀ {i d x}, s'.calls i = some d → d.Owns x → s.bitmap x = false → i = id := by
    intro i d x there own free
    rcases old there with ⟨rfl, rfl⟩ | there
    · rfl
    · exact absurd (sound.marked i d x there own) (by simp [free])
  refine ⟨fun i d x there own => ?_, fun i j d e x there there' own own' => ?_,
    fun i d x there own => ?_, fun i d there => ?_, fun i d addr k there mark => ?_,
    fun i d addr seen there live => ?_⟩
  · rcases owned there own with ⟨e, there, own⟩ | ⟨-, -, set⟩
    · exact bitmap x (sound.marked i e x there own)
    · exact set
  · rcases owned there own with ⟨d', old, owns⟩ | ⟨free, -⟩
    · rcases owned there' own' with ⟨e', old', owns'⟩ | ⟨free, -⟩
      · exact sound.apart i j d' e' x old old' owns owns'
      · exact absurd (sound.marked i d' x old owns) (by simp [free])
    · rw [newer there own free, newer there' own' free]
  · rcases owned there own with ⟨e, there, own⟩ | ⟨-, inside, -⟩
    · exact sound.inside i e x there own
    · exact inside
  · rcases old there with ⟨rfl, rfl⟩ | there
    · exact backed
    · intro x own pfnum seen
      have entry := sound.backed i d there x own pfnum seen
      rw [pt _ (by rw [entry]), entry]
  · rcases old there with ⟨rfl, rfl⟩ | there
    · exact few addr k mark
    · exact sound.few i d addr k there mark
  · rcases old there with ⟨rfl, rfl⟩ | there
    · exact whole addr seen live
    · exact sound.whole i d addr seen there live

/-- A call that owns nothing yet. -/
theorem Sound.idle (sound : Sound maxchunks s) (calls : s'.calls = update s.calls id (some c'))
    (bitmap : s'.bitmap = s.bitmap) (pt : s'.pt = s.pt) (searches : c'.range.2 = 0)
    (few : ∀ addr k, c'.phase = .mark addr k → k ≤ c'.len)
    (whole : ∀ addr seen, c'.phase = .live addr seen → c'.pages addr ≤ seen.length) :
    Sound maxchunks s' := by
  have owns : ∀ x, ¬c'.Owns x := by
    intro x own
    have before := own.2
    have after := own.1
    omega
  exact sound.replace calls (fun _ set => bitmap ▸ set) (fun _ _ => by rw [pt])
    (fun x own => absurd own (owns x)) (fun x own => absurd own (owns x)) few whole

/-! ## Freeing -/

/-- Only pages without a marked chunk are tossed. -/
theorem tossmem_kept {bitmap : Bits.Map} {addr len x : Nat} {pt : Nat → Pte}
    (set : bitmap x = true) : tossmem bitmap addr len pt (chunkToPage x) = pt (chunkToPage x) := by
  unfold tossmem
  induction chunksToPages (len + chunkToOffset addr) with
  | zero => rfl
  | succ n ih =>
    rw [List.range_succ, List.foldl_append]
    simp only [List.foldl_cons, List.foldl_nil]
    split
    next clear =>
      have other : chunkToPage x ≠ chunkToPage addr + n := by
        intro same
        have place : pageToChunk (chunkToPage addr + n) + x % CPPG = x := by
          rw [← same, pageToChunk, chunkToPage, Nat.mul_comm]
          exact Nat.div_add_mod x CPPG
        have bits := Bits.run_full.mp clear (x % CPPG) (Nat.mod_lt _ (by decide))
        rw [place, set] at bits
        cases bits
      rw [update_of_ne other, ih]
    next => exact ih

theorem Sound.release (sound : Sound maxchunks s) {addr len : Nat} (here : s.calls id = some c)
    (range : c.range = (addr, len)) : Sound maxchunks (s.release id addr len) := by
  have old : ∀ {i d}, (s.release id addr len).calls i = some d → i ≠ id ∧ s.calls i = some d := by
    intro i d there
    by_cases same : i = id
    · rw [same] at there
      simp [State.release, State.leave] at there
    · simp only [State.release, State.leave, update_of_ne same] at there
      exact ⟨same, there⟩
  have marked : ∀ {i d x}, (s.release id addr len).calls i = some d → d.Owns x →
      (s.release id addr len).bitmap x = true := by
    intro i d x there own
    obtain ⟨other, there⟩ := old there
    have out : x < addr ∨ addr + len ≤ x := by
      by_contra within
      have owned : c.Owns x := by
        rw [Call.Owns, range]
        omega
      exact other (sound.apart i id d c x there here own owned)
    exact (Bits.fill_outside out).trans (sound.marked i d x there own)
  refine ⟨fun i d x there own => marked there own, fun i j d e x there there' own own' => ?_,
    fun i d x there own => ?_, fun i d there x own pfnum seen => ?_,
    fun i d addr k there mark => ?_, fun i d addr seen there live => ?_⟩
  · exact sound.apart i j d e x (old there).2 (old there').2 own own'
  · exact sound.inside i d x (old there).2 own
  · exact (tossmem_kept (marked there own)).trans
      (sound.backed i d (old there).2 x own pfnum seen)
  · exact sound.few i d addr k (old there).2 mark
  · exact sound.whole i d addr seen (old there).2 live

theorem Sound.leave (sound : Sound maxchunks s) : Sound maxchunks (s.leave id) := by
  have old : ∀ {i d}, (s.leave id).calls i = some d → s.calls i = some d := by
    intro i d there
    by_cases same : i = id
    · rw [same] at there
      simp [State.leave] at there
    · simpa only [State.leave, update_of_ne same] using there
  exact ⟨fun i d x there => sound.marked i d x (old there),
    fun i j d e x there there' => sound.apart i j d e x (old there) (old there'),
    fun i d x there => sound.inside i d x (old there), fun i d there => sound.backed i d (old there),
    fun i d addr k there => sound.few i d addr k (old there),
    fun i d addr seen there => sound.whole i d addr seen (old there)⟩

/-! ## A call going on -/

theorem Call.Backed.mono {pt pt' : Nat → Pte} (backed : c.Backed pt)
    (kept : ∀ p, (pt p).v = true → pt' p = pt p) (range : c'.range = c.range)
    (seen : c'.seen = c.seen) : c'.Backed pt' := by
  intro x own pfnum found
  rw [range, seen] at found
  have entry := backed x (by rwa [Call.Owns, range] at own) pfnum found
  rw [kept _ (by rw [entry]), entry]

/-- A page is gone through. -/
theorem Call.Backed.append {pt : Nat → Pte} {pfnum : Nat} (backed : c.Backed pt)
    (range : c'.range = c.range) (seen : c'.seen = c.seen ++ [pfnum])
    (entry : pt (chunkToPage c.range.1 + c.seen.length) = ⟨pfnum, true⟩) : c'.Backed pt := by
  intro x own pfnum' found
  rw [Call.Owns, range] at own
  rw [range, seen] at found
  have later : chunkToPage c.range.1 ≤ chunkToPage x := Nat.div_le_div_right own.1
  by_cases before : chunkToPage x - chunkToPage c.range.1 < c.seen.length
  · rw [List.getElem?_append_left before] at found
    exact backed x own pfnum' found
  · rw [List.getElem?_append_right (Nat.not_lt.mp before)] at found
    have last : chunkToPage x = chunkToPage c.range.1 + c.seen.length := by
      have bound := (List.getElem?_eq_some_iff.mp found).1
      simp only [List.length_singleton] at bound
      omega
    have same : pfnum' = pfnum := by
      rw [last, Nat.add_sub_cancel_left, Nat.sub_self] at found
      exact (Option.some.inj found).symm
    rw [last, entry, same]

theorem Sound.look (sound : Sound maxchunks s) (addr : Nat) (maxlen : Int) (kind : Kind)
    (foundlen : Nat) : Sound maxchunks (s.look id c addr maxlen kind foundlen) := by
  have scans : ∀ (s : State) (addr : Nat) (maxlen : Int) (kind : Kind), Sound maxchunks s →
      Sound maxchunks (s.goto id c (.scan addr maxlen kind)) := fun s addr maxlen kind sound =>
    sound.idle rfl rfl rfl rfl nofun nofun
  have marks : ∀ addr, Sound maxchunks (s.goto id c (.mark addr 0)) := fun addr =>
    sound.idle rfl rfl rfl rfl (fun _ _ mark => by cases mark; exact Nat.zero_le _) nofun
  cases kind with
  | bftstclr =>
    simp only [State.look]
    split
    · split
      · split
        · exact scans _ _ _ _ sound
        · exact marks _
      · exact marks _
    · exact scans _ _ _ _ sound
  | bftstset =>
    simp only [State.look]
    split
    · exact scans _ _ _ _ ⟨sound.marked, sound.apart, sound.inside, sound.backed, sound.few, sound.whole⟩
    · exact scans _ _ _ _ sound

theorem Sound.mark (sound : Sound maxchunks s) (here : s.calls id = some c) {addr k : Nat}
    (phase : c.phase = .mark addr k) (more : k < c.len)
    (free : s.bitmap (addr + k) = false ∧ addr + k < maxchunks) :
    Sound maxchunks { s.goto id c (.mark addr (k + 1)) with
      bitmap := Bits.fill true s.bitmap (addr + k) 1 } := by
  refine sound.replace rfl (fun x set => ?_) (fun _ _ => rfl) (fun x own => ?_)
    (fun x _ pfnum seen => nomatch seen) (fun _ _ mark => by cases mark; exact more) nofun
  · by_cases new : x = addr + k
    · rw [new]
      exact Bits.fill_inside (Nat.le_refl _) (Nat.lt_succ_self _)
    · exact (Bits.fill_outside (by omega)).trans set
  · obtain ⟨low, high⟩ := own
    by_cases new : x = addr + k
    · subst new
      exact .inr ⟨free.1, free.2, Bits.fill_inside (Nat.le_refl _) (Nat.lt_succ_self _)⟩
    · refine .inl ⟨c, here, ?_⟩
      simp only [Call.range] at low high
      simp only [Call.Owns, Call.range, phase]
      omega

theorem Gets.same (here : s.calls id = some c) (range : c'.range = c.range) :
    ∀ x, c'.Owns x → Gets maxchunks s s' id x := by
  intro x own
  rw [Call.Owns, range] at own
  exact .inl ⟨c, here, own⟩

theorem Sound.assign (sound : Sound maxchunks s) (here : s.calls id = some c) {addr : Nat}
    {seen : List Nat} (phase : c.phase = .assign addr seen) (m : Memory) :
    Sound maxchunks (s.go id c m) := by
  have range : c.range = (addr, c.len) := by simp only [Call.range, phase]
  have seen' : c.seen = seen := by simp only [Call.seen, phase]
  have backed := sound.backed id c here
  simp only [State.go, phase]
  split
  next more =>
    split
    next valid =>
      refine sound.replace rfl (fun _ set => set) (fun _ _ => rfl) (Gets.same here range.symm)
        (backed.append range.symm (congrArg (· ++ _) seen'.symm) ?_) nofun nofun
      rw [range, seen', ← valid]
    next =>
      exact sound.replace rfl (fun _ set => set) (fun _ _ => rfl) (Gets.same here range.symm)
        (backed.mono (fun _ _ => rfl) range.symm seen'.symm) nofun nofun
  next all =>
    refine sound.replace rfl (fun _ set => set) (fun _ _ => rfl) (Gets.same here range.symm)
      (backed.mono (fun _ _ => rfl) range.symm seen'.symm) nofun fun _ _ live => ?_
    cases live
    exact Nat.not_lt.mp all

theorem Sound.want (sound : Sound maxchunks s) (here : s.calls id = some c) {addr : Nat}
    {seen : List Nat} (phase : c.phase = .want addr seen) {m : Memory}
    (keeps : s.Keeps maxchunks (.run id m)) : Sound maxchunks (s.go id c m) := by
  have range : c.range = (addr, c.len) := by simp only [Call.range, phase]
  have seen' : c.seen = seen := by simp only [Call.seen, phase]
  simp only [State.Keeps, here, phase] at keeps
  simp only [State.go, phase]
  cases m with
  | sleep =>
    dsimp only
    split
    · exact sound.unlock
    · exact sound
  | nothing =>
    dsimp only
    split
    · exact sound
    · exact sound.release here range
  | frame pfnum =>
    have kept : ∀ p, (s.pt p).v = true →
        update s.pt (chunkToPage addr + seen.length) ⟨pfnum, false⟩ p = s.pt p := by
      intro p valid
      refine update_of_ne (fun same => ?_) _ _
      rw [same, keeps] at valid
      cases valid
    exact sound.replace rfl (fun _ set => set) kept (Gets.same here range.symm)
      ((sound.backed id c here).mono kept range.symm seen'.symm) nofun nofun

theorem Sound.gotten (sound : Sound maxchunks s) (here : s.calls id = some c) {addr : Nat}
    {seen : List Nat} (phase : c.phase = .gotten addr seen) (m : Memory) :
    Sound maxchunks (s.go id c m) := by
  have range : c.range = (addr, c.len) := by simp only [Call.range, phase]
  have seen' : c.seen = seen := by simp only [Call.seen, phase]
  have finish : Sound maxchunks { s.goto id c (.assign addr
      (seen ++ [(s.pt (chunkToPage addr + seen.length)).pfnum])) with
        pt := update s.pt (chunkToPage addr + seen.length)
          { s.pt (chunkToPage addr + seen.length) with v := true }
        spl6 := some id } := by
    have kept : ∀ p, (s.pt p).v = true → update s.pt (chunkToPage addr + seen.length)
        { s.pt (chunkToPage addr + seen.length) with v := true } p = s.pt p := by
      intro p valid
      by_cases same : p = chunkToPage addr + seen.length
      · subst same
        rw [update_self, ← valid]
      · exact update_of_ne same _ _
    have backed := (sound.backed id c here).mono kept rfl rfl
    refine sound.replace rfl (fun _ set => set) kept (Gets.same here range.symm)
      (backed.append range.symm (congrArg (· ++ _) seen'.symm) ?_) nofun nofun
    rw [range, seen', update_self]
  simp only [State.go, phase]
  cases m with
  | sleep =>
    dsimp only
    split
    · exact sound.unlock
    · exact sound
  | nothing => exact finish
  | frame pfnum => exact finish

theorem Sound.go (sound : Sound maxchunks s) (here : s.calls id = some c) {m : Memory}
    (keeps : s.Keeps maxchunks (.run id m)) : Sound maxchunks (s.go id c m) := by
  cases phase : c.phase with
  | scan addr maxlen kind =>
    simp only [State.go, phase]
    split
    · exact sound.idle rfl rfl rfl rfl nofun nofun
    · exact sound.leave
  | found addr maxlen kind foundlen =>
    simp only [State.go, phase]
    exact sound.look addr maxlen kind foundlen
  | mark addr k =>
    simp only [State.Keeps, here, phase] at keeps
    simp only [State.go, phase]
    split
    next more => exact sound.mark here phase more (keeps more)
    next all =>
      refine sound.replace rfl (fun _ set => set) (fun _ _ => rfl) (fun x own => .inl ⟨c, here, ?_⟩)
        (fun x _ pfnum seen => nomatch seen) nofun nofun
      have few := sound.few id c addr k here phase
      obtain ⟨low, high⟩ := own
      simp only [Call.range] at low high
      simp only [Call.Owns, Call.range, phase]
      omega
  | assign addr seen => exact sound.assign here phase m
  | want addr seen => exact sound.want here phase keeps
  | gotten addr seen => exact sound.gotten here phase m
  | live addr seen =>
    simp only [State.go, phase]
    exact sound

theorem Sound.step {e : Event} (sound : Sound maxchunks s) (keeps : s.Keeps maxchunks e) :
    Sound maxchunks (s.step maxchunks e) := by
  cases e with
  | alloc id bytes how canwait =>
    simp only [State.step]
    split
    · exact sound.idle rfl rfl rfl rfl nofun nofun
    · exact sound
  | run id m =>
    simp only [State.step]
    split
    next c here =>
      split
      · exact sound.go here keeps
      · exact sound
    next => exact sound
  | put id =>
    simp only [State.step]
    split
    next c here =>
      split
      next addr seen phase =>
        split
        · have range : c.range = (addr, c.len) := by simp only [Call.range, phase]
          have released := sound.release here range
          exact ⟨released.marked, released.apart, released.inside, released.backed, released.few,
            released.whole⟩
        · exact sound
      next => exact sound
    next => exact sound

/-! ## Runs -/

/-- What the users of the allocator rely on. -/
structure State.Safe (maxchunks : Nat) (s : State) : Prop where
  /-- the chunks of two live allocations are disjoint -/
  disjoint : ∀ i j c d addr addr' seen seen', i ≠ j → s.calls i = some c → s.calls j = some d →
    c.phase = .live addr seen → d.phase = .live addr' seen' →
      addr + c.len ≤ addr' ∨ addr' + d.len ≤ addr ∨ c.len = 0 ∨ d.len = 0
  /-- they are in the pool -/
  inside : ∀ i c addr seen, s.calls i = some c → c.phase = .live addr seen → c.len ≠ 0 →
    addr + c.len ≤ maxchunks
  /-- the page of a chunk has the frame that the allocation has found -/
  assigned : ∀ i c addr seen, s.calls i = some c → c.phase = .live addr seen →
    ∀ x, addr ≤ x → x < addr + c.len → ∃ pfnum,
      seen[chunkToPage x - chunkToPage addr]? = some pfnum ∧ s.pt (chunkToPage x) = ⟨pfnum, true⟩

theorem Sound.safe (sound : Sound maxchunks s) : s.Safe maxchunks where
  disjoint i j c d addr addr' seen seen' other here there live live' := by
    by_contra overlap
    simp only [not_or, Nat.not_le] at overlap
    obtain ⟨low, high, some, some'⟩ := overlap
    refine other (sound.apart i j c d (max addr addr') here there ?_ ?_)
    · simp only [Call.Owns, Call.range, live]
      omega
    · simp only [Call.Owns, Call.range, live']
      omega
  inside i c addr seen here live filled := by
    have last := sound.inside i c (addr + (c.len - 1)) here (by
      simp only [Call.Owns, Call.range, live]
      omega)
    omega
  assigned i c addr seen here live x low high := by
    have owns : c.Owns x := by
      simp only [Call.Owns, Call.range, live]
      exact ⟨low, high⟩
    have range : c.range.1 = addr := by simp only [Call.range, live]
    have frames : c.seen = seen := by simp only [Call.seen, live]
    have page : chunkToPage x - chunkToPage addr < seen.length := by
      refine Nat.lt_of_lt_of_le ?_ (sound.whole i c addr seen here live)
      simp only [Call.pages, chunksToPages, chunkToOffset, chunkToPage, CPPG]
      omega
    refine ⟨seen[chunkToPage x - chunkToPage addr], List.getElem?_eq_getElem page, ?_⟩
    apply sound.backed i c here x owns
    rw [range, frames]
    exact List.getElem?_eq_getElem page

end

theorem startup_sound (maxchunks : Nat) : Sound maxchunks startup where
  marked _ _ _ call := nomatch call
  apart _ _ _ _ _ call := nomatch call
  inside _ _ _ call := nomatch call
  backed _ _ call := nomatch call
  few _ _ _ _ call := nomatch call
  whole _ _ _ _ call := nomatch call

end Irix.Chunk
