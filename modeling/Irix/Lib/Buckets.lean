import Irix.Lib.Links

/-! # Lists that hang from cells

Singly linked lists with heads of their own, where each node also points back
to the cell it hangs from: to a head, or to the link of the node in front.  A
node is taken out without a search for its list.
-/

namespace Lib.Buckets

open Function

universe u v

/-- The cells that hold a link are the heads and the nodes. -/
structure Cells (α : Type u) (β : Type v) where
  forw : β ⊕ α → Option α
  back : α → Option (β ⊕ α)

variable {α : Type u} {β : Type v}

/-- The nodes of a list hang from each other, the first one from `p`. -/
def Hangs (c : Cells α β) : β ⊕ α → List α → Prop
  | p, [] => c.forw p = none
  | p, a :: l => c.forw p = some a ∧ c.back a = some p ∧ Hangs c (.inr a) l

variable {c c' : Cells α β} {p : β ⊕ α} {a : α} {l pre post : List α}

@[simp] theorem hangs_nil : Hangs c p [] ↔ c.forw p = none := Iff.rfl

@[simp] theorem hangs_cons : Hangs c p (a :: l) ↔
    c.forw p = some a ∧ c.back a = some p ∧ Hangs c (.inr a) l := Iff.rfl

theorem Hangs.path (hangs : Hangs c p l) :
    Links.Path (fun a => c.forw (.inr a)) (c.forw p) l := by
  induction l generalizing p with
  | nil => exact hangs
  | cons a l ih => exact ⟨hangs.1, ih hangs.2.2⟩

theorem Hangs.nodup (hangs : Hangs c p l) : l.Nodup := hangs.path.nodup

theorem Hangs.head (hangs : Hangs c p l) : c.forw p = l.head? := by
  cases l with
  | nil => exact hangs
  | cons a l => exact hangs.1

/-- What is behind a node hangs from it. -/
theorem Hangs.rest (hangs : Hangs c p (pre ++ a :: post)) : Hangs c (.inr a) post := by
  induction pre generalizing p with
  | nil => exact hangs.2.2
  | cons b pre ih => exact ih hangs.2.2

/-- A node hangs from the head or from a node in front of it. -/
theorem Hangs.back (hangs : Hangs c p (pre ++ a :: post)) :
    ∃ q, c.back a = some q ∧ (q = p ∨ ∃ b ∈ pre, q = .inr b) := by
  induction pre generalizing p with
  | nil => exact ⟨p, hangs.2.1, .inl rfl⟩
  | cons b pre ih =>
      obtain ⟨q, back, first | ⟨d, listed, other⟩⟩ := ih hangs.2.2
      · exact ⟨q, back, .inr ⟨b, List.mem_cons_self .., first⟩⟩
      · exact ⟨q, back, .inr ⟨d, List.mem_cons_of_mem _ listed, other⟩⟩

theorem Hangs.congr (hangs : Hangs c p l) (head : c'.forw p = c.forw p)
    (same : ∀ b ∈ l, c'.forw (.inr b) = c.forw (.inr b) ∧ c'.back b = c.back b) :
    Hangs c' p l := by
  induction l generalizing p with
  | nil => exact head.trans hangs
  | cons a l ih =>
      have here := same a (List.mem_cons_self ..)
      refine ⟨head.trans hangs.1, here.2.trans hangs.2.1, ?_⟩
      exact ih hangs.2.2 here.1 fun b listed => same b (List.mem_cons_of_mem _ listed)

section

variable [DecidableEq α] [DecidableEq β]

/-- Hang a node from a cell, and what hung there from the node. -/
def Cells.insert (c : Cells α β) (x : α) (p : β ⊕ α) : Cells α β :=
  let c : Cells α β := { c with forw := update c.forw (.inr x) (c.forw p) }
  let c : Cells α β := match c.forw (.inr x) with
    | none => c
    | some b => { c with back := update c.back b (some (.inr x)) }
  { forw := update c.forw p (some x), back := update c.back x (some p) }

/-- Hang what is behind a node from where the node hangs. -/
def Cells.remove (c : Cells α β) (x : α) : Cells α β :=
  match c.back x with
  | none => c
  | some q =>
    let c : Cells α β := { c with forw := update c.forw q (c.forw (.inr x)) }
    match c.forw (.inr x) with
    | none => c
    | some b => { c with back := update c.back b (some q) }

theorem insert_forw {x : α} {q : β ⊕ α} (self : q ≠ .inr x) (elsewhere : q ≠ p) :
    (c.insert x p).forw q = c.forw q := by
  unfold Cells.insert
  cases first : c.forw p with
  | none => simp only [update_self, update_of_ne elsewhere, update_of_ne self]
  | some d => simp only [update_self, update_of_ne elsewhere, update_of_ne self]

theorem insert_back {x b : α} (new : b ≠ x) (behind : c.forw p ≠ some b) :
    (c.insert x p).back b = c.back b := by
  unfold Cells.insert
  cases first : c.forw p with
  | none => simp only [update_self, update_of_ne new]
  | some d =>
      have other : b ≠ d := fun same => behind (same ▸ first)
      simp only [update_self, update_of_ne new, update_of_ne other]

theorem remove_forw {x : α} {q r : β ⊕ α} (back : c.back x = some q) (elsewhere : r ≠ q) :
    (c.remove x).forw r = c.forw r := by
  simp only [Cells.remove, back]
  cases update c.forw q (c.forw (.inr x)) (.inr x) with
  | none => simp only [update_of_ne elsewhere]
  | some d => simp only [update_of_ne elsewhere]

theorem remove_back {x b : α} {q : β ⊕ α} (back : c.back x = some q) (self : q ≠ .inr x)
    (behind : c.forw (.inr x) ≠ some b) : (c.remove x).back b = c.back b := by
  simp only [Cells.remove, back, update_of_ne self.symm]
  cases next : c.forw (.inr x) with
  | none => rfl
  | some d =>
      have other : b ≠ d := fun same => behind (same ▸ next)
      exact update_of_ne other ..

/-- A new node at a head. -/
theorem Hangs.insert {h : β} {x : α} (hangs : Hangs c (.inl h) l) (new : x ∉ l) :
    Hangs (c.insert x (.inl h)) (.inl h) (x :: l) := by
  refine ⟨update_self .., update_self .., ?_⟩
  have link : (c.insert x (.inl h)).forw (.inr x) = c.forw (.inl h) := by
    unfold Cells.insert
    cases first : c.forw (.inl h) with
    | none => simp only [update_self, update_of_ne Sum.inr_ne_inl]
    | some d => simp only [update_self, update_of_ne Sum.inr_ne_inl]
  cases l with
  | nil => exact link.trans hangs
  | cons a l =>
      have other : a ≠ x := fun same => new (same ▸ List.mem_cons_self ..)
      have fresh : a ∉ l := (List.nodup_cons.mp hangs.nodup).1
      have back : (c.insert x (.inl h)).back a = some (.inr x) := by
        simp only [Cells.insert, update_self, hangs.1, update_of_ne other]
      have apart : ∀ {b : α}, b ≠ x → (.inr b : β ⊕ α) ≠ .inr x :=
        fun unlike same => unlike (Sum.inr.inj same)
      refine ⟨link.trans hangs.1, back, hangs.2.2.congr ?_ fun b listed => ?_⟩
      · exact insert_forw (apart other) Sum.inr_ne_inl
      · have unlike : b ≠ x := fun same => new (same ▸ List.mem_cons_of_mem _ listed)
        refine ⟨insert_forw (apart unlike) Sum.inr_ne_inl, insert_back unlike fun first => ?_⟩
        cases hangs.1.symm.trans first
        exact fresh listed

/-- A node out of a list. -/
theorem Hangs.remove {x : α} (hangs : Hangs c p (pre ++ x :: post))
    (outside : ∀ b ∈ pre ++ x :: post, p ≠ .inr b) : Hangs (c.remove x) p (pre ++ post) := by
  induction pre generalizing p with
  | nil =>
      obtain ⟨-, back, rest⟩ := hangs
      have self : p ≠ .inr x := outside x (List.mem_cons_self ..)
      have link : (c.remove x).forw p = c.forw (.inr x) := by
        simp only [Cells.remove, back, update_of_ne self.symm]
        cases c.forw (.inr x) with
        | none => simp only [update_self]
        | some d => simp only [update_self]
      cases post with
      | nil => exact link.trans rest
      | cons a post =>
          have fresh := (List.nodup_cons.mp rest.nodup).1
          have back' : (c.remove x).back a = some p := by
            simp only [Cells.remove, back, update_of_ne self.symm, rest.1, update_self]
          have kept : ∀ b ∈ a :: post, (c.remove x).forw (.inr b) = c.forw (.inr b) :=
            fun b listed => remove_forw back (outside b (List.mem_cons_of_mem _ listed)).symm
          refine ⟨link.trans rest.1, back', rest.2.2.congr ?_ fun b listed => ?_⟩
          · exact kept a (List.mem_cons_self ..)
          · refine ⟨kept b (List.mem_cons_of_mem _ listed), remove_back back self fun first => ?_⟩
            cases rest.1.symm.trans first
            exact fresh listed
  | cons d pre ih =>
      have fresh : d ∉ pre ++ x :: post := (List.nodup_cons.mp hangs.nodup).1
      obtain ⟨first, back, rest⟩ := hangs
      have rest' := ih rest fun b listed same => fresh (Sum.inr.inj same ▸ listed)
      obtain ⟨q, back', place⟩ := rest.back
      have held : q ≠ p ∧ q ≠ .inr x := by
        rcases place with rfl | ⟨b, listed, rfl⟩
        · refine ⟨(outside d (List.mem_cons_self ..)).symm, fun same => fresh ?_⟩
          rw [Sum.inr.inj same]
          exact List.mem_append_right _ (List.mem_cons_self ..)
        · have apart := (List.nodup_append.mp rest.nodup).2.2
          refine ⟨(outside b ?_).symm, fun same => ?_⟩
          · exact List.mem_cons_of_mem _ (List.mem_append_left _ listed)
          · exact apart b listed x (List.mem_cons_self ..) (Sum.inr.inj same)
      refine ⟨(remove_forw back' held.1.symm).trans first, ?_, rest'⟩
      refine (remove_back back' held.2 fun next => fresh ?_).trans back
      rw [rest.rest.head] at next
      have listed : d ∈ post := List.mem_of_head? next
      exact List.mem_append_right _ (List.mem_cons_of_mem _ listed)

/-- The lists of all heads, no node on two of them. -/
structure Hung (c : Cells α β) (lists : β → List α) : Prop where
  hangs : ∀ h, Hangs c (.inl h) (lists h)
  apart : ∀ h h' a, a ∈ lists h → a ∈ lists h' → h = h'

namespace Hung

variable {lists : β → List α} {h : β} {x : α}

/-- A node that is on no list is hung from a head. -/
theorem insert (hung : Hung c lists) (new : ∀ h', x ∉ lists h') :
    Hung (c.insert x (.inl h)) (update lists h (x :: lists h)) := by
  constructor
  · intro h'
    by_cases same : h' = h
    · subst same
      rw [update_self]
      exact (hung.hangs h').insert (new h')
    · rw [update_of_ne same]
      refine (hung.hangs h').congr ?_ fun b listed => ?_
      · exact insert_forw Sum.inl_ne_inr fun head => same (Sum.inl.inj head)
      · have unlike : b ≠ x := ne_of_mem_of_not_mem listed (new h')
        refine ⟨insert_forw (fun node => unlike (Sum.inr.inj node)) Sum.inr_ne_inl, ?_⟩
        refine insert_back unlike fun first => same ?_
        rw [(hung.hangs h).head] at first
        exact hung.apart _ _ b listed (List.mem_of_head? first)
  · intro h₁ h₂ a listed₁ listed₂
    by_cases self : a = x
    · have only : ∀ {h' : β}, a ∈ update lists h (x :: lists h) h' → h' = h := by
        intro h' listed
        by_contra other
        rw [update_of_ne other, self] at listed
        exact new h' listed
      exact (only listed₁).trans (only listed₂).symm
    · have old : ∀ {h' : β}, a ∈ update lists h (x :: lists h) h' → a ∈ lists h' := by
        intro h' listed
        by_cases same : h' = h
        · subst same
          rw [update_self] at listed
          exact (List.mem_cons.mp listed).resolve_left self
        · rwa [update_of_ne same] at listed
      exact hung.apart _ _ a (old listed₁) (old listed₂)

omit [DecidableEq α] [DecidableEq β] in
theorem next (hung : Hung c lists) (listed : lists h = pre ++ x :: post) :
    c.forw (.inr x) = post.head? := by
  have here := hung.hangs h
  rw [listed] at here
  exact here.rest.head

/-- A node that is taken out keeps its own link. -/
theorem next_remove (hung : Hung c lists) (listed : lists h = pre ++ x :: post) :
    (c.remove x).forw (.inr x) = post.head? := by
  have here := hung.hangs h
  rw [listed] at here
  obtain ⟨q, back, place⟩ := here.back
  rw [remove_forw back, here.rest.head]
  rintro rfl
  rcases place with head | ⟨d, front, node⟩
  · cases head
  · cases node
    exact (List.nodup_append.mp here.nodup).2.2 x front x (List.mem_cons_self ..) rfl

/-- A node is taken from its list. -/
theorem remove (hung : Hung c lists) (listed : lists h = pre ++ x :: post) :
    Hung (c.remove x) (update lists h (pre ++ post)) := by
  have here := hung.hangs h
  rw [listed] at here
  obtain ⟨q, back, place⟩ := here.back
  have own : ∀ b, q = .inr b → b ∈ pre := by
    rintro b rfl
    rcases place with head | ⟨d, front, node⟩
    · cases head
    · cases node
      exact front
  constructor
  · intro h'
    by_cases same : h' = h
    · subst same
      rw [update_self]
      exact here.remove fun b _ => Sum.inl_ne_inr
    · rw [update_of_ne same]
      have away : ∀ b ∈ lists h', b ∉ pre ++ x :: post := by
        intro b listed' again
        rw [← listed] at again
        exact same (hung.apart _ _ b listed' again)
      refine (hung.hangs h').congr ?_ fun b listed' => ⟨?_, ?_⟩
      · refine remove_forw back fun head => ?_
        rcases place with first | ⟨d, -, node⟩
        · exact same (Sum.inl.inj (head.trans first))
        · cases head.trans node
      · exact remove_forw back fun node =>
          away b listed' (List.mem_append_left _ (own b node.symm))
      · have self : q ≠ .inr x := by
          intro node
          have apart := (List.nodup_append.mp here.nodup).2.2
          exact apart x (own x node) x (List.mem_cons_self ..) rfl
        refine remove_back back self fun next => away b listed' ?_
        rw [here.rest.head] at next
        exact List.mem_append_right _ (List.mem_cons_of_mem _ (List.mem_of_head? next))
  · intro h₁ h₂ a listed₁ listed₂
    have old : ∀ {h' : β}, a ∈ update lists h (pre ++ post) h' → a ∈ lists h' := by
      intro h' listed'
      by_cases same : h' = h
      · subst same
        rw [update_self] at listed'
        rw [listed, List.mem_append, List.mem_cons]
        exact (List.mem_append.mp listed').imp_right .inr
      · rwa [update_of_ne same] at listed'
    exact hung.apart _ _ a (old listed₁) (old listed₂)

end Hung

end

end Lib.Buckets
