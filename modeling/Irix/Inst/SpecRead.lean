import Irix.Inst.SpecText

/-! # Reading a specification back

The text of a specification is read back unless a subsystem has prerequisites, a string is too long, or
a mark names a product `self`. `getprereq` takes one token too many, and never gets out of a
specification again.
-/

namespace Irix.Inst.Spec

/-! ## What is written -/

/-- A string of C. -/
structure CString where
  bytes : Str
  whole : 0 ∉ bytes

inductive Replaces where
  | self
  | mark (pname iname sname : CString) (lowvers highvers : BitVec 32)

/-- A mark between the parentheses. -/
structure Needed where
  pname : CString
  iname : CString
  sname : CString
  lowvers : BitVec 32

/-- A group of prerequisites, of one mark or more. -/
structure Group where
  first : Needed
  more : List Needed

structure SubsysText where
  name : CString
  id : CString
  exp : CString
  main : Bool
  default : Bool
  prereq : List Group
  rep : List Replaces

structure ImageText where
  name : CString
  id : CString
  version : BitVec 32
  order : BitVec 16
  padsize : BitVec 32
  add : Bool
  subsys : List SubsysText

structure ProdText where
  name : CString
  id : CString
  image : List ImageText

/-! ## Its text -/

def Replaces.toks : Replaces → List Tok
  | .self => [.key .replaces, .self]
  | .mark p i s l h =>
    [.key .replaces, .string p.bytes, .string i.bytes, .string s.bytes, .number l.toInt, .number h.toInt]

def Needed.toks (m : Needed) : List Tok :=
  [.string m.pname.bytes, .string m.iname.bytes, .string m.sname.bytes, .number m.lowvers.toInt]

def Group.toks (g : Group) : List Tok :=
  Tok.key .prereq :: Tok.key .lpar :: (g.first :: g.more).flatMap Needed.toks ++ [Tok.key .rpar]

def SubsysText.toks (ss : SubsysText) : List Tok :=
  Tok.key .subsys :: Tok.string ss.name.bytes :: (if ss.default then [Tok.key .default] else []) ++
    (if ss.main then [Tok.key .main] else []) ++
    [Tok.key .id, Tok.string ss.id.bytes, Tok.key .exp, Tok.string ss.exp.bytes] ++
    ss.prereq.flatMap Group.toks ++ ss.rep.flatMap Replaces.toks ++ [Tok.key .dot]

def ImageText.toks (im : ImageText) : List Tok :=
  Tok.key .image :: Tok.string im.name.bytes :: Tok.key .version :: Tok.number im.version.toInt ::
    (if im.add then [Tok.key .add] else []) ++
    [Tok.key .id, Tok.string im.id.bytes, Tok.key .order, Tok.number im.order.toInt,
      Tok.key .padsize, Tok.number im.padsize.toInt] ++
    im.subsys.flatMap SubsysText.toks ++ [Tok.key .dot]

def ProdText.toks (pr : ProdText) : List Tok :=
  Tok.key .product :: Tok.string pr.name.bytes :: Tok.key .id :: Tok.string pr.id.bytes ::
    pr.image.flatMap ImageText.toks ++ [Tok.key .dot]

/-! ## What it is -/

def Replaces.toMark (prName imName ssName : Str) (version : Int) : Replaces → Mark
  | .self => ⟨prName, imName, ssName, 0, long (version - 1)⟩
  | .mark p i s l h => ⟨p.bytes, i.bytes, s.bytes, l.toInt, h.toInt⟩

def Needed.toMark (m : Needed) : Mark :=
  ⟨m.pname.bytes, m.iname.bytes, m.sname.bytes, m.lowvers.toInt, maxlong⟩

def Group.toPrereq (g : Group) : Prereq := ⟨(g.first :: g.more).map Needed.toMark⟩

def SubsysText.toSubsys (prName imName : Str) (version : Int) (ss : SubsysText) : Subsys where
  flags := (if ss.default then Default else 0) ||| (if ss.main then Main else 0)
  name := ss.name.bytes
  id := ss.id.bytes
  exp := ss.exp.bytes
  rep := ss.rep.map (Replaces.toMark prName imName ss.name.bytes version)
  prereq := ss.prereq.map Group.toPrereq

def ImageText.toImage (prName : Str) (im : ImageText) : Image where
  flags := if im.add then Add else 0
  name := im.name.bytes
  id := im.id.bytes
  format := formatImage
  order := im.order.toInt
  version := im.version.toInt
  length := 0
  padsize := im.padsize.toInt
  subsys := im.subsys.map (SubsysText.toSubsys prName im.name.bytes im.version.toInt)

def ProdText.toProd (pr : ProdText) : Prod where
  name := pr.name.bytes
  id := pr.id.bytes
  flags := 0
  image := pr.image.map (ImageText.toImage pr.name.bytes)

/-! ## What is read back -/

def Short (p : CString) : Prop := p.bytes.length < Strsize

def Replaces.Readable : Replaces → Prop
  | .self => True
  | .mark p i s _ _ => Short p ∧ Short i ∧ Short s ∧ p.bytes ≠ Spec.self

structure SubsysText.Readable (ss : SubsysText) : Prop where
  name : Short ss.name
  id : Short ss.id
  exp : Short ss.exp
  prereq : ss.prereq = []
  rep : ∀ r ∈ ss.rep, r.Readable

structure ImageText.Readable (im : ImageText) : Prop where
  name : Short im.name
  id : Short im.id
  subsys : ∀ ss ∈ im.subsys, ss.Readable

structure ProdText.Readable (pr : ProdText) : Prop where
  name : Short pr.name
  id : Short pr.id
  image : ∀ im ∈ pr.image, im.Readable

/-! ## Loops with enough fuel -/

section

variable {α : Type} {f g : Nat → Result α} {P : Result α → Prop}

def Ends (f : Nat → Result α) (P : Result α → Prop) : Prop := ∃ N, ∀ fuel, N ≤ fuel → P (f fuel)

theorem Ends.step (next : ∀ fuel, f (fuel + 1) = g fuel) (ends : Ends g P) : Ends f P := by
  obtain ⟨N, holds⟩ := ends
  refine ⟨N + 1, fun fuel enough => ?_⟩
  obtain ⟨fuel, rfl⟩ : ∃ k, fuel = k + 1 := ⟨fuel - 1, by omega⟩
  rw [next]
  exact holds fuel (by omega)

theorem Ends.always (holds : ∀ fuel, P (f fuel)) : Ends f P := ⟨0, fun fuel _ => holds fuel⟩

theorem Ends.congr (same : ∀ fuel, f fuel = g fuel) (ends : Ends g P) : Ends f P := by
  rwa [show f = g from funext same]

end

/-- Nothing good will come of this: a symbol that is none is next, or two numbers that are not asked
    for. -/
def Doomed (s : State) : Prop :=
  s.sym = .error ∨ ∃ l h ts, s.rest = text (.number l :: .number h :: ts) ∧ AllGood (.number l :: .number h :: ts)

/-- What should be read is read, and something else, or in a bad state, if it cannot. -/
structure Outcome {α : Type} (bad : State → Prop) (readable : Prop) (right : α) (after : State)
    (r : Result α) : Prop where
  yes : readable → r = .ok right after
  no : ¬readable → ∀ a s, r = .ok a s → a ≠ right ∨ bad s

section

variable {outside : Int → Bool} {getenv : Str → Option Str} {n fuel : Nat} {w : Bool} {ts : List Tok} {t : Tok}
  {s : State} {prName imName : Str} {version padsize : Int} {ss : Subsys} {im : Image} {prod : Prod}

/-! ## One time around -/

section

attribute [local simp] getsubsysLoop getimageLoop getprodLoop

theorem look_sym (k : Sym) (known : k ≠ .eof ∧ k ≠ .error) : (look n w (.key k :: ts)).sym = k :=
  symOf_word known

theorem subsys_id {p : Str} (good : AllGood (.string p :: ts)) :
    getsubsysLoop outside getenv prName imName version (fuel + 1) ss (look n w (.key .id :: .string p :: ts)) =
      getsubsysLoop outside getenv prName imName version fuel { ss with id := p } (look n w ts) := by
  simp [run_getSym, look_sym .id (by decide)]
  exact run_bind (strval_scan good)

theorem subsys_exp {p : Str} (good : AllGood (.string p :: ts)) :
    getsubsysLoop outside getenv prName imName version (fuel + 1) ss (look n w (.key .exp :: .string p :: ts)) =
      getsubsysLoop outside getenv prName imName version fuel { ss with exp := p } (look n w ts) := by
  simp [run_getSym, look_sym .exp (by decide)]
  exact run_bind (strval_scan good)

theorem subsys_default (good : AllGood ts) :
    getsubsysLoop outside getenv prName imName version (fuel + 1) ss (look n w (.key .default :: ts)) =
      getsubsysLoop outside getenv prName imName version fuel { ss with flags := ss.flags ||| Default }
        (look n w ts) := by
  simp [run_getSym, look_sym .default (by decide)]
  exact run_bind (nextsym_text good)

theorem subsys_main (good : AllGood ts) :
    getsubsysLoop outside getenv prName imName version (fuel + 1) ss (look n w (.key .main :: ts)) =
      getsubsysLoop outside getenv prName imName version fuel { ss with flags := ss.flags ||| Main }
        (look n w ts) := by
  simp [run_getSym, look_sym .main (by decide)]
  exact run_bind (nextsym_text good)

theorem subsys_dot (good : AllGood ts) :
    getsubsysLoop outside getenv prName imName version (fuel + 1) ss (look n w (.key .dot :: ts)) =
      .ok ss (look n w ts) := by
  simp [run_getSym, look_sym .dot (by decide)]
  exact run_bind (nextsym_text good)

theorem getreplaces_mark {p i s : Str} {l h : Int}
    (good : AllGood (.string p :: .string i :: .string s :: .number l :: .number h :: ts)) (other : p ≠ self)
    (ssName : Str) :
    getreplaces outside getenv prName imName ssName version
        (look n w (.key .replaces :: .string p :: .string i :: .string s :: .number l :: .number h :: ts)) =
      .ok ⟨p, i, s, l, h⟩ (look n w ts) := by
  have low := good.tail.tail.tail.head
  have high := good.tail.tail.tail.tail.head
  rw [getreplaces]
  refine (run_bind (strval_stay good.head)).trans ?_
  rw [if_neg (by exact other)]
  refine (run_bind (strval_stay good.tail.head)).trans ?_
  refine (run_bind (strval_stay good.tail.tail.head)).trans ?_
  refine (run_bind (longval_stay low)).trans ?_
  refine (run_bind (longval_scan good.tail.tail.tail.tail)).trans ?_
  simp only [Tok.value, atol_decimal low.1 low.2, atol_decimal high.1 high.2]
  rfl

theorem getreplaces_self (good : AllGood (.self :: ts)) (ssName : Str) :
    getreplaces outside getenv prName imName ssName version (look n w (.key .replaces :: .self :: ts)) =
      .ok ⟨prName, imName, ssName, 0, long (version - 1)⟩ (look n w ts) := by
  rw [getreplaces]
  refine (run_bind (strval_stay good.head)).trans ?_
  rw [if_pos (by rfl)]
  exact run_bind (nextsym_text good.tail)

theorem subsys_replaces {r : Replaces} (readable : r.Readable) (good : AllGood (r.toks ++ ts)) :
    getsubsysLoop outside getenv prName imName version (fuel + 1) ss (look n w (r.toks ++ ts)) =
      getsubsysLoop outside getenv prName imName version fuel
        { ss with rep := ss.rep ++ [r.toMark prName imName ss.name version] } (look n w ts) := by
  cases r with
  | self =>
      rw [Replaces.toks, List.cons_append, getsubsysLoop, run_getSym, look_sym .replaces (by decide)]
      exact run_bind (getreplaces_self good.tail ss.name)
  | mark p i s l h =>
      rw [Replaces.toks, List.cons_append, getsubsysLoop, run_getSym, look_sym .replaces (by decide)]
      exact run_bind (getreplaces_mark good.tail readable.2.2.2 ss.name)

theorem image_version {v : Int} (good : AllGood (.number v :: ts)) :
    getimageLoop outside getenv prName (fuel + 1) im (look n w (.key .version :: .number v :: ts)) =
      getimageLoop outside getenv prName fuel { im with version := v } (look n w ts) := by
  simp [run_getSym, look_sym .version (by decide)]
  refine (run_bind (longval_scan good)).trans ?_
  rw [show (Tok.number v).value = decimal v from rfl, atol_decimal good.head.1 good.head.2]

theorem image_padsize {v : Int} (good : AllGood (.number v :: ts)) :
    getimageLoop outside getenv prName (fuel + 1) im (look n w (.key .padsize :: .number v :: ts)) =
      getimageLoop outside getenv prName fuel { im with padsize := v } (look n w ts) := by
  simp [run_getSym, look_sym .padsize (by decide)]
  refine (run_bind (longval_scan good)).trans ?_
  rw [show (Tok.number v).value = decimal v from rfl, atol_decimal good.head.1 good.head.2]

theorem image_order {v : Int} (good : AllGood (.number v :: ts)) :
    getimageLoop outside getenv prName (fuel + 1) im (look n w (.key .order :: .number v :: ts)) =
      getimageLoop outside getenv prName fuel { im with order := short v } (look n w ts) := by
  simp [run_getSym, look_sym .order (by decide)]
  refine (run_bind (longval_scan good)).trans ?_
  rw [show (Tok.number v).value = decimal v from rfl, atol_decimal good.head.1 good.head.2]

theorem image_id {p : Str} (good : AllGood (.string p :: ts)) :
    getimageLoop outside getenv prName (fuel + 1) im (look n w (.key .id :: .string p :: ts)) =
      getimageLoop outside getenv prName fuel { im with id := p } (look n w ts) := by
  simp [run_getSym, look_sym .id (by decide)]
  exact run_bind (strval_scan good)

theorem image_add (good : AllGood ts) :
    getimageLoop outside getenv prName (fuel + 1) im (look n w (.key .add :: ts)) =
      getimageLoop outside getenv prName fuel { im with flags := im.flags ||| Add } (look n w ts) := by
  simp [run_getSym, look_sym .add (by decide)]
  exact run_bind (nextsym_text good)

theorem image_dot (good : AllGood ts) :
    getimageLoop outside getenv prName (fuel + 1) im (look n w (.key .dot :: ts)) = .ok im (look n w ts) := by
  simp [run_getSym, look_sym .dot (by decide)]
  exact run_bind (nextsym_text good)

theorem prod_id {p : Str} (good : AllGood (.string p :: ts)) :
    getprodLoop outside getenv padsize (fuel + 1) prod (look n w (.key .id :: .string p :: ts)) =
      getprodLoop outside getenv padsize fuel { prod with id := p } (look n w ts) := by
  simp [run_getSym, look_sym .id (by decide)]
  exact run_bind (strval_scan good)

theorem prod_dot (good : AllGood ts) :
    getprodLoop outside getenv padsize (fuel + 1) prod (look n w (.key .dot :: ts)) = .ok prod (look n w ts) := by
  simp [run_getSym, look_sym .dot (by decide)]
  exact run_bind (nextsym_text good)

end

/-! ## What cannot go well -/

theorem look_number (m : Int) : (look n w (.number m :: ts)).sym = .error := symOf_decimal m

/-- The table of marks grows. -/
theorem subsys_grows (fuel : Nat) (ss : Subsys) (s : State) :
    Post (getsubsysLoop outside getenv prName imName version fuel ss) s fun a _ =>
      a.name = ss.name ∧ ss.rep <+: a.rep := by
  induction fuel generalizing ss s with
  | zero => exact post_unknown
  | succ fuel ih =>
      rw [getsubsysLoop]
      apply post_getSym
      generalize s.sym = sym
      cases sym with
      | eof => exact post_online _
      | dot => exact Post.then fun _ _ => post_pure ⟨rfl, List.prefix_refl _⟩
      | id | exp | default | main | prereq => exact Post.then fun _ _ => ih _ _
      | replaces =>
          refine Post.then fun mark s' => (ih _ s').mono fun a _ grown => ⟨grown.1, ?_⟩
          exact (List.prefix_append ..).trans grown.2
      | error | image | product | subsys | version | padsize | add | lpar | rpar | order =>
          exact post_online _

theorem subsys_error (none : s.sym = .error ∨ s.sym = .rpar) (fuel : Nat) (ss : Subsys) :
    Post (getsubsysLoop outside getenv prName imName version fuel ss) s fun _ _ => False := by
  cases fuel with
  | zero => exact post_unknown
  | succ fuel =>
      rw [getsubsysLoop]
      apply post_getSym
      rcases none with none | none
      · rw [none]
        exact post_online _
      · rw [none]
        exact post_online _

/-- `getprereq` leaves the right parenthesis where it is. -/
theorem getprereq_rpar (fuel : Nat) (s : State) :
    Post (getprereq outside getenv fuel) s fun _ s' => s'.sym = .rpar := by
  have loop : ∀ fuel pq s, Post (getprereqLoop outside getenv fuel pq) s fun _ s' => s'.sym = .rpar := by
    intro fuel
    induction fuel with
    | zero => exact fun pq s => post_unknown
    | succ fuel ih =>
        intro pq s
        rw [getprereqLoop]
        apply post_getSym
        by_cases ends : s.sym = .rpar
        · simp only [ends, if_true]
          exact post_pure ends
        · simp only [ends, if_false]
          refine Post.then fun pname s₁ => Post.then fun _ s₂ => ?_
          split
          · exact post_online _
          · refine Post.then fun iname s₃ => ?_
            split
            · exact post_online _
            · refine Post.then fun sname s₄ => ?_
              split
              · exact post_online _
              · exact Post.then fun lowvers s₅ => ih _ _
  rw [getprereq]
  refine Post.then fun _ s₁ => ?_
  apply post_getSym
  split
  · exact post_online _
  · exact Post.then fun _ s₂ => Post.bind (loop fuel [] s₂) fun _ _ ends => post_pure ends

theorem subsys_prereq (next : s.sym = .prereq) (fuel : Nat) (ss : Subsys) :
    Post (getsubsysLoop outside getenv prName imName version fuel ss) s fun _ _ => False := by
  cases fuel with
  | zero => exact post_unknown
  | succ fuel =>
      rw [getsubsysLoop]
      apply post_getSym
      rw [next]
      exact Post.bind (getprereq_rpar fuel s) fun _ _ ends => subsys_error (Or.inr ends) fuel _

/-! ## Marks of a product `self` -/

theorem prefix_same {l m : List Mark} {a b : Mark} {k : List Mark} (grown : l ++ [a] <+: m)
    (same : m = l ++ b :: k) : a = b := by
  rw [same, ← List.singleton_append (x := b), List.prefix_append_right_inj] at grown
  exact (List.cons_prefix_cons.mp grown).1

/-- The mark that is read is not the first of these. -/
theorem subsys_wrong {l : List Mark} {m b : Mark} {k : List Mark} (fuel : Nat) (ss : Subsys) (s : State)
    (grown : ss.rep = l ++ [m]) (other : m ≠ b) :
    Post (getsubsysLoop outside getenv prName imName version fuel ss) s fun a _ => a.rep ≠ l ++ b :: k := by
  refine (subsys_grows fuel ss s).mono fun a _ grows same => other ?_
  rw [grown] at grows
  exact prefix_same grows.2 same

theorem subsys_longer {l : List Mark} {m : Mark} (fuel : Nat) (ss : Subsys) (s : State)
    (grown : ss.rep = l ++ [m]) :
    Post (getsubsysLoop outside getenv prName imName version fuel ss) s fun a _ => a.rep ≠ l := by
  refine (subsys_grows fuel ss s).mono fun a _ grows same => ?_
  have length := grows.2.length_le
  rw [grown, same, List.length_append, List.length_singleton] at length
  omega

/-- Two numbers behind `replaces` are taken for names, and so the marks behind them are shifted. -/
theorem shifted_marks (product : prName = self) (l : List Replaces) (a b : Int) (fuel : Nat) (ss : Subsys)
    (s : State) (next : s.sym = .replaces)
    (rest : s.rest = text (.number a :: .number b :: (l.flatMap Replaces.toks ++ .key .dot :: ts)))
    (good : AllGood (.number a :: .number b :: (l.flatMap Replaces.toks ++ .key .dot :: ts))) :
    Post (getsubsysLoop outside getenv prName imName version fuel ss) s fun y _ =>
      y.rep ≠ ss.rep ++ l.map (Replaces.toMark prName imName ss.name version) := by
  obtain ⟨_, line, _, wild⟩ := s
  subst next rest
  induction l generalizing a b fuel ss line wild with
  | nil =>
      cases fuel with
      | zero => exact post_unknown
      | succ fuel =>
          rw [getsubsysLoop]
          apply post_getSym
          rw [List.map_nil, List.append_nil]
          exact Post.then fun mark s' => subsys_longer fuel _ s' rfl
  | cons r l ih =>
      cases fuel with
      | zero => exact post_unknown
      | succ fuel =>
          rw [getsubsysLoop]
          apply post_getSym
          have first := fun ts' => @strval_stay outside getenv line ts' (.number a) .replaces wild good.head
          have other : (Tok.number a).value ≠ self := decimal_self a
          cases r with
          | self =>
              have name : Post (getreplaces outside getenv prName imName ss.name version)
                  ⟨text (.number a :: .number b :: (((.self : Replaces) :: l).flatMap Replaces.toks ++ .key .dot :: ts)),
                    line, .replaces, wild⟩ fun m _ => m.pname = decimal a := by
                rw [getreplaces]
                refine post_of_run (first _) ?_
                rw [if_neg other]
                exact Post.then fun _ _ => Post.then fun _ _ => Post.then fun _ _ => Post.then fun _ _ =>
                  post_pure rfl
              refine Post.bind name fun mark s' named => ?_
              apply subsys_wrong fuel _ s' rfl
              intro same
              rw [same, Replaces.toMark, product] at named
              exact decimal_self a named.symm
          | mark p i sn c d =>
              rw [List.flatMap_cons, Replaces.toks] at good ⊢
              simp only [List.cons_append, List.nil_append] at good ⊢
              have run : getreplaces outside getenv prName imName ss.name version
                  ⟨text (.number a :: .number b :: .key .replaces :: .string p.bytes :: .string i.bytes ::
                    .string sn.bytes :: .number c.toInt :: .number d.toInt ::
                      (l.flatMap Replaces.toks ++ .key .dot :: ts)), line, .replaces, wild⟩ =
                  .ok ⟨decimal a, decimal b, Sym.replaces.word, atol p.bytes, atol i.bytes⟩
                    (look line wild (.string sn.bytes :: .number c.toInt :: .number d.toInt ::
                      (l.flatMap Replaces.toks ++ .key .dot :: ts))) := by
                rw [getreplaces]
                refine (run_bind (first _)).trans ?_
                rw [if_neg other]
                refine (run_bind (strval_stay good.tail.head)).trans ?_
                refine (run_bind (strval_stay good.tail.tail.head)).trans ?_
                refine (run_bind (longval_stay good.tail.tail.tail.head)).trans ?_
                exact run_bind (longval_scan good.tail.tail.tail.tail)
              refine post_of_run run ?_
              by_cases same : (⟨decimal a, decimal b, Sym.replaces.word, atol p.bytes, atol i.bytes⟩ : Mark) =
                  Replaces.toMark prName imName ss.name version (.mark p i sn c d)
              · have again : (look line wild (.string sn.bytes :: .number c.toInt :: .number d.toInt ::
                    (l.flatMap Replaces.toks ++ .key .dot :: ts))).sym = .replaces := by
                  have named : Sym.replaces.word = sn.bytes := congrArg Mark.sname same
                  show symOf sn.bytes = _
                  rw [← named]
                  exact symOf_word (by decide)
                have later := fun m => ih c.toInt d.toInt fuel { ss with rep := ss.rep ++ [m] }
                  good.tail.tail.tail.tail.tail.tail line wild
                rw [← again] at later
                refine (later _).mono fun y _ wrong right => wrong ?_
                rw [right, same]
                simp
              · exact subsys_wrong fuel _ _ rfl same

/-- A name and two numbers are left of a mark, and the name is the next symbol. -/
theorem name_left (product : prName = self) (l : List Replaces) (p : Str) (a b : Int) (fuel : Nat)
    (ss : Subsys)
    (good : AllGood (.string p :: .number a :: .number b :: (l.flatMap Replaces.toks ++ .key .dot :: ts))) :
    Post (getsubsysLoop outside getenv prName imName version fuel ss)
      (look n w (.string p :: .number a :: .number b :: (l.flatMap Replaces.toks ++ .key .dot :: ts)))
      fun y s' => y.rep ≠ ss.rep ++ l.map (Replaces.toMark prName imName ss.name version) ∨ Doomed s' := by
  by_cases next : (look n w (.string p :: .number a :: .number b ::
      (l.flatMap Replaces.toks ++ .key .dot :: ts))).sym = .replaces
  · exact (shifted_marks product l a b fuel ss _ next rfl good.tail).mono fun _ _ wrong => Or.inl wrong
  · cases fuel with
    | zero => exact post_unknown
    | succ fuel =>
        rw [getsubsysLoop]
        apply post_getSym
        generalize (look n w (.string p :: .number a :: .number b ::
          (l.flatMap Replaces.toks ++ .key .dot :: ts))).sym = sym at next
        cases sym with
        | eof => exact post_online _
        | error | image | product | subsys | version | padsize | add | lpar | rpar | order =>
            exact post_online _
        | dot =>
            refine post_of_run (nextsym_text good.tail) (post_pure (Or.inr (Or.inl ?_)))
            exact look_number a
        | id | exp =>
            refine post_of_run (strval_scan good.tail) ?_
            exact (subsys_error (Or.inl (look_number b)) fuel _).mono fun _ _ none => none.elim
        | default | main =>
            refine post_of_run (nextsym_text good.tail) ?_
            exact (subsys_error (Or.inl (look_number a)) fuel _).mono fun _ _ none => none.elim
        | prereq =>
            refine Post.bind (getprereq_rpar fuel _) fun _ s' ends => ?_
            exact (subsys_error (Or.inr ends) fuel _).mono fun _ _ none => none.elim
        | replaces => exact absurd rfl next

/-- Two names and two numbers are left of a mark of the product `self`. -/
theorem names_left (product : prName = self) (l : List Replaces) (p q : Str) (a b : Int) (fuel : Nat)
    (ss : Subsys)
    (good : AllGood (.string p :: .string q :: .number a :: .number b ::
      (l.flatMap Replaces.toks ++ .key .dot :: ts))) :
    Post (getsubsysLoop outside getenv prName imName version fuel ss)
      (look n w (.string p :: .string q :: .number a :: .number b ::
        (l.flatMap Replaces.toks ++ .key .dot :: ts)))
      fun y s' => y.rep ≠ ss.rep ++ l.map (Replaces.toMark prName imName ss.name version) ∨ Doomed s' := by
  cases fuel with
  | zero => exact post_unknown
  | succ fuel =>
      rw [getsubsysLoop]
      apply post_getSym
      generalize (look n w (.string p :: .string q :: .number a :: .number b ::
        (l.flatMap Replaces.toks ++ .key .dot :: ts))).sym = sym
      cases sym with
      | eof => exact post_online _
      | error | image | product | subsys | version | padsize | add | lpar | rpar | order =>
          exact post_online _
      | dot =>
          refine post_of_run (nextsym_text good.tail) (post_pure (Or.inr (Or.inr ?_)))
          exact ⟨a, b, _, rfl, good.tail.tail⟩
      | id | exp =>
          refine post_of_run (strval_scan good.tail) ?_
          exact (subsys_error (Or.inl (look_number a)) fuel _).mono fun _ _ none => none.elim
      | default | main =>
          refine post_of_run (nextsym_text good.tail) ?_
          exact name_left product l q a b fuel _ good.tail
      | prereq =>
          refine Post.bind (getprereq_rpar fuel _) fun _ s' ends => ?_
          exact (subsys_error (Or.inr ends) fuel _).mono fun _ _ none => none.elim
      | replaces =>
          by_cases again : q = self
          · have run : getreplaces outside getenv prName imName ss.name version
                (look n w (.string p :: .string q :: .number a :: .number b ::
                  (l.flatMap Replaces.toks ++ .key .dot :: ts))) =
                .ok ⟨prName, imName, ss.name, 0, long (version - 1)⟩
                  (look n w (.number a :: .number b :: (l.flatMap Replaces.toks ++ .key .dot :: ts))) := by
              rw [getreplaces]
              refine (run_bind (strval_stay good.tail.head)).trans ?_
              rw [if_pos (by exact again)]
              exact run_bind (nextsym_text good.tail.tail)
            refine post_of_run run ?_
            exact (subsys_error (Or.inl (look_number a)) fuel _).mono fun _ _ none => none.elim
          · have first := fun ts' sym => @strval_stay outside getenv n ts' (.string q) sym w good.tail.head
            cases l with
            | nil =>
                rw [List.map_nil, List.append_nil]
                exact Post.then fun mark s' => (subsys_longer fuel _ s' rfl).mono fun _ _ wrong => Or.inl wrong
            | cons r l =>
                cases r with
                | self =>
                    have name : Post (getreplaces outside getenv prName imName ss.name version)
                        (look n w (.string p :: .string q :: .number a :: .number b ::
                          (((.self : Replaces) :: l).flatMap Replaces.toks ++ .key .dot :: ts)))
                        fun m _ => m.pname = q := by
                      rw [getreplaces]
                      refine post_of_run (first _ _) ?_
                      rw [if_neg (by exact again)]
                      exact Post.then fun _ _ => Post.then fun _ _ => Post.then fun _ _ =>
                        Post.then fun _ _ => post_pure rfl
                    refine Post.bind name fun mark s' named => ?_
                    refine (subsys_wrong fuel _ s' rfl fun same => ?_).mono fun _ _ wrong => Or.inl wrong
                    rw [same, Replaces.toMark, product] at named
                    exact again named.symm
                | mark p' i' s' c d =>
                    rw [List.flatMap_cons, Replaces.toks] at good ⊢
                    simp only [List.cons_append, List.nil_append] at good ⊢
                    have run : getreplaces outside getenv prName imName ss.name version
                        (look n w (.string p :: .string q :: .number a :: .number b :: .key .replaces ::
                          .string p'.bytes :: .string i'.bytes :: .string s'.bytes :: .number c.toInt ::
                            .number d.toInt :: (l.flatMap Replaces.toks ++ .key .dot :: ts))) =
                        .ok ⟨q, decimal a, decimal b, atol Sym.replaces.word, atol p'.bytes⟩
                          (look n w (.string i'.bytes :: .string s'.bytes :: .number c.toInt ::
                            .number d.toInt :: (l.flatMap Replaces.toks ++ .key .dot :: ts))) := by
                      rw [getreplaces]
                      refine (run_bind (first _ _)).trans ?_
                      rw [if_neg (by exact again)]
                      refine (run_bind (strval_stay good.tail.tail.head)).trans ?_
                      refine (run_bind (strval_stay good.tail.tail.tail.head)).trans ?_
                      refine (run_bind (longval_stay good.tail.tail.tail.tail.head)).trans ?_
                      exact run_bind (longval_scan good.tail.tail.tail.tail.tail)
                    refine post_of_run run ?_
                    by_cases same : (⟨q, decimal a, decimal b, atol Sym.replaces.word, atol p'.bytes⟩ : Mark) =
                        Replaces.toMark prName imName ss.name version (.mark p' i' s' c d)
                    · have named : decimal a = i'.bytes := congrArg Mark.iname same
                      have none : (look n w (.string i'.bytes :: .string s'.bytes :: .number c.toInt ::
                          .number d.toInt :: (l.flatMap Replaces.toks ++ .key .dot :: ts))).sym = .error := by
                        show symOf i'.bytes = _
                        rw [← named]
                        exact symOf_decimal a
                      exact (subsys_error (Or.inl none) fuel _).mono fun _ _ none => none.elim
                    · exact (subsys_wrong fuel _ _ rfl same).mono fun _ _ wrong => Or.inl wrong

/-- A mark of the product `self` is taken for `replaces self`. -/
theorem subsys_self {p i q : CString} {a b : BitVec 32} {l : List Replaces} (product : p.bytes = self)
    (fuel : Nat) (ss : Subsys)
    (good : AllGood ((Replaces.mark p i q a b).toks ++ (l.flatMap Replaces.toks ++ .key .dot :: ts))) :
    Post (getsubsysLoop outside getenv prName imName version fuel ss)
      (look n w ((Replaces.mark p i q a b).toks ++ (l.flatMap Replaces.toks ++ .key .dot :: ts)))
      fun y s' => y.rep ≠ ss.rep ++
        (.mark p i q a b :: l).map (Replaces.toMark prName imName ss.name version) ∨ Doomed s' := by
  cases fuel with
  | zero => exact post_unknown
  | succ fuel =>
      rw [Replaces.toks] at good ⊢
      simp only [List.cons_append, List.nil_append] at good ⊢
      rw [getsubsysLoop]
      apply post_getSym
      rw [look_sym .replaces (by decide)]
      have run : getreplaces outside getenv prName imName ss.name version
          (look n w (.key .replaces :: .string p.bytes :: .string i.bytes :: .string q.bytes ::
            .number a.toInt :: .number b.toInt :: (l.flatMap Replaces.toks ++ .key .dot :: ts))) =
          .ok ⟨prName, imName, ss.name, 0, long (version - 1)⟩
            (look n w (.string i.bytes :: .string q.bytes :: .number a.toInt :: .number b.toInt ::
              (l.flatMap Replaces.toks ++ .key .dot :: ts))) := by
        rw [getreplaces]
        refine (run_bind (strval_stay good.tail.head)).trans ?_
        rw [if_pos (by exact product)]
        exact run_bind (nextsym_text good.tail.tail)
      refine post_of_run run ?_
      by_cases same : (⟨prName, imName, ss.name, 0, long (version - 1)⟩ : Mark) =
          Replaces.toMark prName imName ss.name version (.mark p i q a b)
      · have named : prName = p.bytes := congrArg Mark.pname same
        refine (names_left (named.trans product) l _ _ _ _ fuel _ good.tail.tail).mono ?_
        intro y s' wrong
        rcases wrong with wrong | doomed
        · left
          rw [List.map_cons, ← same]
          simpa using wrong
        · exact Or.inr doomed
      · exact (subsys_wrong fuel _ _ rfl same).mono fun _ _ wrong => Or.inl wrong

/-- The marks and the end of a subsystem. -/
theorem marks_outcome (l : List Replaces) (ss : Subsys)
    (good : AllGood (l.flatMap Replaces.toks ++ .key .dot :: ts)) :
    Ends (fun fuel => getsubsysLoop outside getenv prName imName version fuel ss
        (look n w (l.flatMap Replaces.toks ++ .key .dot :: ts)))
      (Outcome Doomed (∀ r ∈ l, r.Readable)
        { ss with rep := ss.rep ++ l.map (Replaces.toMark prName imName ss.name version) } (look n w ts)) := by
  induction l generalizing ss with
  | nil =>
      refine Ends.step (fun fuel => subsys_dot good.tail) (Ends.always fun _ => ?_)
      exact ⟨fun _ => by simp, fun not => absurd (by simp) not⟩
  | cons r l ih =>
      rw [List.flatMap_cons, List.append_assoc] at good ⊢
      have later : AllGood (l.flatMap Replaces.toks ++ .key .dot :: ts) :=
        fun t listed => good t (List.mem_append_right _ listed)
      by_cases readable : r.Readable
      · refine Ends.step (fun fuel => subsys_replaces readable good) ?_
        obtain ⟨N, outcome⟩ := ih { ss with
          rep := ss.rep ++ [r.toMark prName imName ss.name version] } later
        refine ⟨N, fun fuel enough => ?_⟩
        have ends := outcome fuel enough
        simp only [List.append_assoc, List.singleton_append] at ends
        constructor
        case yes => exact fun all => ends.yes fun r listed => all r (.tail _ listed)
        case no =>
          intro not
          apply ends.no
          intro all
          exact not (List.forall_mem_cons.mpr ⟨readable, all⟩)
      · refine Ends.always fun fuel => ⟨fun all => absurd (all r (List.mem_cons_self ..)) readable,
          fun _ y s' ran => ?_⟩
        cases r with
        | self => exact absurd trivial readable
        | mark p i q a b =>
            have product : p.bytes = self := by
              by_contra other
              have first := good.tail.head
              have second := good.tail.tail.head
              have third := good.tail.tail.tail.head
              exact readable ⟨first.2, second.2, third.2, other⟩
            refine (subsys_self product fuel ss good y s' ran).imp_left fun wrong same => wrong ?_
            rw [same]

theorem AllGood.behind {front : List Tok} (good : AllGood (front ++ ts)) : AllGood ts :=
  fun t listed => good t (List.mem_append_right _ listed)

theorem subsys_default_if {P : Result Subsys → Prop} (d : Bool) (good : AllGood ts)
    (ends : Ends (fun fuel => getsubsysLoop outside getenv prName imName version fuel
      { ss with flags := ss.flags ||| (if d then Default else 0) } (look n w ts)) P) :
    Ends (fun fuel => getsubsysLoop outside getenv prName imName version fuel ss
      (look n w ((if d then [.key .default] else []) ++ ts))) P := by
  cases d with
  | false => simpa using ends
  | true => exact Ends.step (fun fuel => subsys_default good) ends

theorem subsys_main_if {P : Result Subsys → Prop} (m : Bool) (good : AllGood ts)
    (ends : Ends (fun fuel => getsubsysLoop outside getenv prName imName version fuel
      { ss with flags := ss.flags ||| (if m then Main else 0) } (look n w ts)) P) :
    Ends (fun fuel => getsubsysLoop outside getenv prName imName version fuel ss
      (look n w ((if m then [.key .main] else []) ++ ts))) P := by
  cases m with
  | false => simpa using ends
  | true => exact Ends.step (fun fuel => subsys_main good) ends

theorem subsys_outcome (d : SubsysText) (good : AllGood (d.toks ++ ts)) :
    Ends (fun fuel => getsubsys outside getenv prName imName version fuel (look n w (d.toks ++ ts)))
      (Outcome Doomed d.Readable (d.toSubsys prName imName version) (look n w ts)) := by
  rw [SubsysText.toks] at good ⊢
  simp only [List.append_assoc, List.cons_append, List.nil_append] at good ⊢
  have named := good.tail
  have flagged := named.tail.behind
  have ided := flagged.behind
  have exped := ided.tail.tail
  have needed := exped.tail.tail
  have short : Short d.name ∧ Short d.id ∧ Short d.exp :=
    ⟨named.head.2, ided.tail.head.2, exped.tail.head.2⟩
  have begins : ∀ fuel, getsubsys outside getenv prName imName version fuel _ =
      getsubsysLoop outside getenv prName imName version fuel ⟨0, d.name.bytes, [], [], [], []⟩ _ :=
    fun fuel => run_bind (@strval_scan outside getenv n _ _ .subsys w named)
  refine Ends.congr begins ?_
  apply subsys_default_if d.default flagged
  apply subsys_main_if d.main ided
  refine Ends.step (fun fuel => subsys_id ided.tail) ?_
  refine Ends.step (fun fuel => subsys_exp exped.tail) ?_
  by_cases none : d.prereq = []
  · simp only [none, List.flatMap_nil, List.nil_append] at needed ⊢
    have outcome := @marks_outcome outside getenv n w ts prName imName version d.rep
      ⟨0 ||| (if d.default then Default else 0) ||| (if d.main then Main else 0), d.name.bytes, d.id.bytes,
        d.exp.bytes, [], []⟩ needed
    have iff : d.Readable ↔ ∀ r ∈ d.rep, r.Readable :=
      ⟨fun readable => readable.rep, fun marks => ⟨short.1, short.2.1, short.2.2, none, marks⟩⟩
    rw [← iff] at outcome
    simpa [SubsysText.toSubsys, none] using outcome
  · refine Ends.always fun fuel => ⟨fun readable => absurd readable.prereq none, fun _ y s' ran => ?_⟩
    cases groups : d.prereq with
    | nil => exact absurd groups none
    | cons g l =>
        rw [groups] at ran
        exact (subsys_prereq rfl fuel _ y s' ran).elim

/-! ## Tables of tables -/

theorem image_grows (fuel : Nat) (im : Image) (s : State) :
    Post (getimageLoop outside getenv prName fuel im) s fun a _ => im.subsys <+: a.subsys := by
  induction fuel generalizing im s with
  | zero => exact post_unknown
  | succ fuel ih =>
      rw [getimageLoop]
      apply post_getSym
      generalize s.sym = sym
      cases sym with
      | dot => exact Post.then fun _ _ => post_pure (List.prefix_refl _)
      | version | add | id | padsize | order => exact Post.then fun _ _ => ih _ _
      | subsys =>
          exact Post.then fun ss s' => (ih _ s').mono fun a _ grown => (List.prefix_append ..).trans grown
      | eof => exact post_online _
      | error | exp | image | prereq | product | main | default | lpar | rpar | replaces =>
          exact post_online _

theorem image_error (none : s.sym = .error) (fuel : Nat) (im : Image) :
    Post (getimageLoop outside getenv prName fuel im) s fun _ _ => False := by
  cases fuel with
  | zero => exact post_unknown
  | succ fuel =>
      rw [getimageLoop]
      apply post_getSym
      rw [none]
      exact post_online _

/-- What is left of a mark does not make an image. -/
theorem image_doomed (doomed : Doomed s) (fuel : Nat) (im : Image) :
    Post (getimageLoop outside getenv prName fuel im) s fun _ s' => s'.sym = .error := by
  rcases doomed with none | ⟨l, h, ts, rest, good⟩
  · exact (image_error none fuel im).mono fun _ _ no => no.elim
  · obtain ⟨_, line, sym, wild⟩ := s
    subst rest
    have stops : ∀ fuel im, Post (getimageLoop outside getenv prName fuel im)
        (look line wild (.number h :: ts)) fun _ s' => s'.sym = .error :=
      fun fuel im => (image_error (look_number h) fuel im).mono fun _ _ no => no.elim
    cases fuel with
    | zero => exact post_unknown
    | succ fuel =>
        rw [getimageLoop]
        apply post_getSym
        simp only
        cases sym with
        | dot => exact post_of_run (nextsym_text good) (post_pure (look_number l))
        | version | padsize | order => exact post_of_run (longval_scan good) (stops fuel _)
        | id => exact post_of_run (strval_scan good) (stops fuel _)
        | add =>
            refine post_of_run (nextsym_text good) ?_
            exact (image_error (look_number l) fuel _).mono fun _ _ no => no.elim
        | subsys =>
            have never : Post (getsubsys outside getenv prName im.name im.version fuel)
                ⟨text (.number l :: .number h :: ts), line, .subsys, wild⟩ fun _ _ => False := by
              rw [getsubsys]
              exact post_of_run (strval_scan good) (subsys_error (Or.inl (look_number h)) fuel _)
            exact Post.bind never fun _ _ no => no.elim
        | eof => exact post_online _
        | error | exp | image | prereq | product | main | default | lpar | rpar | replaces =>
            exact post_online _

theorem prod_grows (fuel : Nat) (prod : Prod) (s : State) :
    Post (getprodLoop outside getenv padsize fuel prod) s fun a _ => prod.image <+: a.image := by
  induction fuel generalizing prod s with
  | zero => exact post_unknown
  | succ fuel ih =>
      rw [getprodLoop]
      apply post_getSym
      generalize s.sym = sym
      cases sym with
      | dot => exact Post.then fun _ _ => post_pure (List.prefix_refl _)
      | id => exact Post.then fun _ _ => ih _ _
      | image =>
          exact Post.then fun im s' => (ih _ s').mono fun a _ grown => (List.prefix_append ..).trans grown
      | eof => exact post_online _
      | error | exp | prereq | product | subsys | version | main | default | padsize | add | lpar | rpar
        | replaces | order => exact post_online _

theorem prod_error (none : s.sym = .error) (fuel : Nat) (prod : Prod) :
    Post (getprodLoop outside getenv padsize fuel prod) s fun _ _ => False := by
  cases fuel with
  | zero => exact post_unknown
  | succ fuel =>
      rw [getprodLoop]
      apply post_getSym
      rw [none]
      exact post_online _

theorem spec_grows (fuel : Nat) (spec : List Prod) (s : State) :
    Post (parsespecLoop outside getenv padsize fuel spec) s fun a _ => spec <+: a := by
  induction fuel generalizing spec s with
  | zero => exact post_unknown
  | succ fuel ih =>
      rw [parsespecLoop]
      apply post_getSym
      split
      · exact Post.then fun pr s' => (ih _ s').mono fun a _ grown => (List.prefix_append ..).trans grown
      · split
        · exact post_online _
        · exact post_pure (List.prefix_refl _)

end

/-- A loop that reads entries of a table among other things. -/
structure Level (X A : Type) (badEntry bad : State → Prop) where
  loop : Nat → X → Parse X
  entry : X → Nat → Parse A
  push : X → A → X
  table : X → List A
  table_push : ∀ x a, table (push x a) = table x ++ [a]
  grows : ∀ fuel x s, Post (loop fuel x) s fun y _ => table x <+: table y
  fails : ∀ s, badEntry s → ∀ fuel x, Post (loop fuel x) s fun _ s' => bad s'

section

variable {X A D : Type} {badEntry bad : State → Prop} {n : Nat} {w : Bool} {ts : List Tok}

theorem table_all (lv : Level X A badEntry bad) {make : X → D → A}
    (same : ∀ x a d, make (lv.push x a) d = make x d) (l : List D) (x : X) :
    lv.table (l.foldl (fun x d => lv.push x (make x d)) x) = lv.table x ++ l.map (make x) := by
  induction l generalizing x with
  | nil => simp
  | cons d l ih =>
      have later : make (lv.push x (make x d)) = make x := funext fun e => same _ _ e
      rw [List.foldl_cons, ih, lv.table_push, later]
      simp

/-- The entries are read one after the other, up to the first one that is not read back. -/
theorem Level.run (lv : Level X A badEntry bad) {toks : D → List Tok} {make : X → D → A}
    {readable : D → Prop} (same : ∀ x a d, make (lv.push x a) d = make x d)
    (turn : ∀ fuel x d rest, lv.loop (fuel + 1) x (look n w (toks d ++ rest)) =
      (lv.entry x fuel >>= fun a => lv.loop fuel (lv.push x a)) (look n w (toks d ++ rest)))
    (entries : ∀ x d rest, AllGood (toks d ++ rest) →
      Ends (fun fuel => lv.entry x fuel (look n w (toks d ++ rest)))
        (Outcome badEntry (readable d) (make x d) (look n w rest)))
    (after : State) (last : ∀ x, Ends (fun fuel => lv.loop fuel x (look n w ts)) (· = .ok x after))
    (l : List D) (x : X) (good : AllGood (l.flatMap toks ++ ts)) :
    Ends (fun fuel => lv.loop fuel x (look n w (l.flatMap toks ++ ts)))
      (Outcome bad (∀ d ∈ l, readable d) (l.foldl (fun x d => lv.push x (make x d)) x) after) := by
  induction l generalizing x with
  | nil =>
      obtain ⟨N, ends⟩ := last x
      exact ⟨N, fun fuel enough => ⟨fun _ => ends fuel enough, fun not => absurd (by simp) not⟩⟩
  | cons d l ih =>
      rw [List.flatMap_cons, List.append_assoc] at good ⊢
      obtain ⟨N, outcome⟩ := entries x d _ good
      by_cases read : readable d
      · obtain ⟨M, later⟩ := ih (lv.push x (make x d)) good.behind
        refine Ends.step (fun fuel => turn fuel x d _) ⟨max N M, fun fuel enough => ?_⟩
        have first := (outcome fuel (by omega)).yes read
        simp only [run_bind first]
        have ends := later fuel (by omega)
        constructor
        case yes => exact fun all => ends.yes fun e listed => all e (.tail _ listed)
        case no =>
          intro not
          apply ends.no
          exact fun all => not (List.forall_mem_cons.mpr ⟨read, all⟩)
      · refine Ends.step (fun fuel => turn fuel x d _) ⟨N, fun fuel enough => ?_⟩
        have wrong := (outcome fuel enough).no read
        have never : Post (lv.entry x fuel >>= fun a => lv.loop fuel (lv.push x a))
            (look n w (toks d ++ (l.flatMap toks ++ ts))) fun y s' =>
              y ≠ (d :: l).foldl (fun x d => lv.push x (make x d)) x ∨ bad s' := by
          refine Post.bind wrong fun a s₁ wrong => ?_
          rcases wrong with other | failed
          · refine (lv.grows fuel _ s₁).mono fun y _ grown => Or.inl fun right => other ?_
            rw [lv.table_push, right, List.foldl_cons, table_all lv same, lv.table_push, List.append_assoc,
              List.prefix_append_right_inj] at grown
            exact (List.cons_prefix_cons.mp grown).1
          · exact (lv.fails s₁ failed fuel _).mono fun _ _ bad => Or.inr bad
        exact ⟨fun all => absurd (all d (List.mem_cons_self ..)) read, fun _ => never⟩

end

/-- The next symbol is none. -/
def Lost (s : State) : Prop := s.sym = .error

section

variable (outside : Int → Bool) (getenv : Str → Option Str)

def imageLevel (prName : Str) : Level Image Subsys Doomed Lost where
  loop := getimageLoop outside getenv prName
  entry im := getsubsys outside getenv prName im.name im.version
  push im ss := { im with subsys := im.subsys ++ [ss] }
  table := Image.subsys
  table_push _ _ := rfl
  grows := image_grows
  fails _ doomed := image_doomed doomed

def prodLevel (padsize : Int) : Level Prod Image Lost fun _ => False where
  loop := getprodLoop outside getenv padsize
  entry prod := getimage outside getenv padsize prod.name
  push prod im := { prod with image := prod.image ++ [im] }
  table := Prod.image
  table_push _ _ := rfl
  grows := prod_grows
  fails _ lost := prod_error lost

def specLevel (padsize : Int) : Level (List Prod) Prod (fun _ => False) fun _ => False where
  loop := parsespecLoop outside getenv padsize
  entry _ := getprod outside getenv padsize
  push spec prod := spec ++ [prod]
  table := id
  table_push _ _ := rfl
  grows := spec_grows
  fails _ none := none.elim

end

section

variable {outside : Int → Bool} {getenv : Str → Option Str} {n fuel : Nat} {w : Bool} {ts : List Tok}
  {prName : Str} {padsize : Int}

theorem image_all (l : List SubsysText) (im : Image) :
    l.foldl (fun im d => (imageLevel outside getenv prName).push im
        (d.toSubsys prName im.name im.version)) im =
      { im with subsys := im.subsys ++ l.map (SubsysText.toSubsys prName im.name im.version) } := by
  induction l generalizing im with
  | nil => simp
  | cons d l ih =>
      rw [List.foldl_cons, ih]
      simp [imageLevel]

theorem prod_all (l : List ImageText) (prod : Prod) :
    l.foldl (fun prod d => (prodLevel outside getenv padsize).push prod (d.toImage prod.name)) prod =
      { prod with image := prod.image ++ l.map (ImageText.toImage prod.name) } := by
  induction l generalizing prod with
  | nil => simp
  | cons d l ih =>
      rw [List.foldl_cons, ih]
      simp [prodLevel]

theorem spec_all (l : List ProdText) (spec : List Prod) :
    l.foldl (fun spec d => (specLevel outside getenv padsize).push spec d.toProd) spec =
      spec ++ l.map ProdText.toProd := by
  induction l generalizing spec with
  | nil => simp
  | cons d l ih =>
      rw [List.foldl_cons, ih]
      simp [specLevel]

theorem image_turn (fuel : Nat) (im : Image) (d : SubsysText) (rest : List Tok) :
    getimageLoop outside getenv prName (fuel + 1) im (look n w (d.toks ++ rest)) =
      (getsubsys outside getenv prName im.name im.version fuel >>= fun ss =>
        getimageLoop outside getenv prName fuel { im with subsys := im.subsys ++ [ss] })
          (look n w (d.toks ++ rest)) := by
  rw [getimageLoop, run_getSym]
  rfl

theorem prod_turn (fuel : Nat) (prod : Prod) (d : ImageText) (rest : List Tok) :
    getprodLoop outside getenv padsize (fuel + 1) prod (look n w (d.toks ++ rest)) =
      (getimage outside getenv padsize prod.name fuel >>= fun im =>
        getprodLoop outside getenv padsize fuel { prod with image := prod.image ++ [im] })
          (look n w (d.toks ++ rest)) := by
  rw [getprodLoop, run_getSym]
  rfl

theorem spec_turn (fuel : Nat) (spec : List Prod) (d : ProdText) (rest : List Tok) :
    parsespecLoop outside getenv padsize (fuel + 1) spec (look n w (d.toks ++ rest)) =
      (getprod outside getenv padsize fuel >>= fun prod =>
        parsespecLoop outside getenv padsize fuel (spec ++ [prod])) (look n w (d.toks ++ rest)) := by
  rw [parsespecLoop, run_getSym]
  rfl

theorem short_toInt (x : BitVec 16) : short x.toInt = x.toInt := by
  have low := BitVec.le_toInt x
  have high := BitVec.toInt_lt (x := x)
  exact Int.bmod_eq_of_le (by omega) (by omega)

theorem image_add_if {P : Result Image → Prop} {im : Image} (a : Bool) (good : AllGood ts)
    (ends : Ends (fun fuel => getimageLoop outside getenv prName fuel
      { im with flags := im.flags ||| (if a then Add else 0) } (look n w ts)) P) :
    Ends (fun fuel => getimageLoop outside getenv prName fuel im
      (look n w ((if a then [.key .add] else []) ++ ts))) P := by
  cases a with
  | false => simpa using ends
  | true => exact Ends.step (fun fuel => image_add good) ends

theorem image_outcome (d : ImageText) (good : AllGood (d.toks ++ ts)) :
    Ends (fun fuel => getimage outside getenv padsize prName fuel (look n w (d.toks ++ ts)))
      (Outcome Lost d.Readable (d.toImage prName) (look n w ts)) := by
  rw [ImageText.toks] at good ⊢
  simp only [List.append_assoc, List.cons_append, List.nil_append] at good ⊢
  have named := good.tail
  have added := named.tail.tail.tail
  have ided := added.behind
  have tables := ided.tail.tail.tail.tail.tail.tail
  have begins : ∀ fuel, getimage outside getenv padsize prName fuel _ =
      getimageLoop outside getenv prName fuel ⟨0, d.name.bytes, [], formatImage, 0, 0, 0, padsize, []⟩ _ :=
    fun fuel => run_bind (@strval_scan outside getenv n _ _ .image w named)
  refine Ends.congr begins ?_
  refine Ends.step (fun fuel => image_version named.tail.tail) ?_
  apply image_add_if d.add ided
  refine Ends.step (fun fuel => image_id ided.tail) ?_
  refine Ends.step (fun fuel => image_order ided.tail.tail.tail) ?_
  refine Ends.step (fun fuel => image_padsize ided.tail.tail.tail.tail.tail) ?_
  have outcome := (imageLevel outside getenv prName).run (fun _ _ _ => rfl) image_turn
    (fun im e rest => subsys_outcome e) (look n w ts)
    (fun im => Ends.step (fun fuel => image_dot tables.behind.tail) (Ends.always fun _ => rfl)) d.subsys
    ⟨0 ||| (if d.add then Add else 0), d.name.bytes, d.id.bytes, formatImage, short d.order.toInt,
      d.version.toInt, 0, d.padsize.toInt, []⟩ tables
  have iff : d.Readable ↔ ∀ ss ∈ d.subsys, ss.Readable :=
    ⟨fun readable => readable.subsys, fun all => ⟨named.head.2, ided.tail.head.2, all⟩⟩
  rw [← iff, image_all] at outcome
  simpa [ImageText.toImage, short_toInt, imageLevel] using outcome

theorem prod_outcome (d : ProdText) (good : AllGood (d.toks ++ ts)) :
    Ends (fun fuel => getprod outside getenv padsize fuel (look n w (d.toks ++ ts)))
      (Outcome (fun _ => False) d.Readable d.toProd (look n w ts)) := by
  rw [ProdText.toks] at good ⊢
  simp only [List.append_assoc, List.cons_append, List.nil_append] at good ⊢
  have named := good.tail
  have tables := named.tail.tail.tail
  have begins : ∀ fuel, getprod outside getenv padsize fuel _ =
      getprodLoop outside getenv padsize fuel ⟨d.name.bytes, [], 0, []⟩ _ :=
    fun fuel => run_bind (@strval_scan outside getenv n _ _ .product w named)
  refine Ends.congr begins ?_
  refine Ends.step (fun fuel => prod_id named.tail.tail) ?_
  have outcome := (prodLevel outside getenv padsize).run (fun _ _ _ => rfl) prod_turn
    (fun prod e rest => image_outcome e) (look n w ts)
    (fun prod => Ends.step (fun fuel => prod_dot tables.behind.tail) (Ends.always fun _ => rfl)) d.image
    ⟨d.name.bytes, d.id.bytes, 0, []⟩ tables
  have iff : d.Readable ↔ ∀ im ∈ d.image, im.Readable :=
    ⟨fun readable => readable.image, fun all => ⟨named.head.2, named.tail.tail.head.2, all⟩⟩
  rw [← iff, prod_all] at outcome
  simpa [ProdText.toProd, prodLevel] using outcome

end

end Irix.Inst.Spec
