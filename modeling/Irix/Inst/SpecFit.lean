import Irix.Inst.SpecRead

/-! # Specifications that are read back

A string that is too long is not read back, since no longer one is ever read.
-/

namespace Irix.Inst.Spec

/-! ## Strings of what is read -/

def markStrings (m : Mark) : List Str := [m.pname, m.iname, m.sname]

def Subsys.strings (ss : Subsys) : List Str :=
  ss.name :: ss.id :: ss.exp :: (ss.rep.flatMap markStrings ++
    ss.prereq.flatMap fun pr => pr.pq.flatMap markStrings)

def Image.strings (im : Image) : List Str := im.name :: im.id :: im.subsys.flatMap Subsys.strings

def Prod.strings (prod : Prod) : List Str := prod.name :: prod.id :: prod.image.flatMap Image.strings

/-- They fit the buffer of `token`. -/
def Fit (l : List Str) : Prop := ∀ p ∈ l, p.length < Strsize

section

variable {outside : Int → Bool} {getenv : Str → Option Str} {prName : Str} {padsize : Int}

theorem token_fits (s : State) : Post (token outside getenv) s fun p _ => p.length < Strsize := by
  intro p t ran
  rw [token] at ran
  split at ran
  next =>
    cases ran
    decide
  next line c r _ =>
    generalize (if isQuote c then (some c, r) else (none, c :: r)) = quoted at ran
    obtain ⟨quote, r⟩ := quoted
    simp only at ran
    split at ran
    next =>
      cases ran
      exact Nat.lt_of_le_of_lt (List.length_take_le 1 r) (by decide)
    next =>
      split at ran
      next => cases ran
      next p' rest _ =>
        split at ran
        next =>
          split at ran
          next => cases ran
          next =>
            split at ran
            next short =>
              cases ran
              exact short
            next => cases ran
        next =>
          cases ran
          have cut := (List.takeWhile_sublist (· ≠ 0) (l := p'.take (Strsize - 1))).length_le
          exact Nat.lt_of_le_of_lt (cut.trans (List.length_take_le ..)) (by decide)

theorem strval_fits (move : Move) (s : State) :
    Post (strval outside getenv move) s fun p _ => p.length < Strsize := by
  rw [strval]
  refine Post.bind (token_fits s) fun p s' short => ?_
  cases move with
  | scan => exact Post.then fun _ _ => post_pure short
  | stay => exact post_pure short

theorem fit_append {l m : List Str} : Fit (l ++ m) ↔ Fit l ∧ Fit m := List.forall_mem_append

theorem getreplaces_fits {imName ssName : Str} {version : Int} (names : Fit [prName, imName, ssName])
    (s : State) :
    Post (getreplaces outside getenv prName imName ssName version) s fun m _ => Fit (markStrings m) := by
  rw [getreplaces]
  refine Post.bind (strval_fits .stay s) fun pname s₁ short₁ => ?_
  split
  · exact Post.then fun _ _ => post_pure names
  · refine Post.bind (strval_fits .stay s₁) fun iname s₂ short₂ => ?_
    refine Post.bind (strval_fits .stay s₂) fun sname s₃ short₃ => ?_
    refine Post.then fun _ _ => Post.then fun _ _ => post_pure ?_
    intro p listed
    simp only [markStrings, List.mem_cons, List.not_mem_nil, or_false] at listed
    rcases listed with rfl | rfl | rfl
    · exact short₁
    · exact short₂
    · exact short₃

theorem getprereq_fits (fuel : Nat) (s : State) :
    Post (getprereq outside getenv fuel) s fun pr _ => Fit (pr.pq.flatMap markStrings) := by
  have loop : ∀ fuel pq s, Fit (pq.flatMap markStrings) →
      Post (getprereqLoop outside getenv fuel pq) s fun pq _ => Fit (pq.flatMap markStrings) := by
    intro fuel
    induction fuel with
    | zero => exact fun pq s _ => post_unknown
    | succ fuel ih =>
        intro pq s fit
        rw [getprereqLoop]
        apply post_getSym
        split
        · exact post_pure fit
        · refine Post.bind (strval_fits .stay s) fun pname s₁ short₁ => Post.then fun _ s₂ => ?_
          split
          · exact post_online _
          · refine Post.bind (strval_fits .stay s₂) fun iname s₃ short₃ => ?_
            split
            · exact post_online _
            · refine Post.bind (strval_fits .stay s₃) fun sname s₄ short₄ => ?_
              split
              · exact post_online _
              · refine Post.then fun lowvers s₅ => ih _ _ ?_
                rw [List.flatMap_append, fit_append]
                refine ⟨fit, fun p listed => ?_⟩
                simp only [List.flatMap_singleton, markStrings, List.mem_cons, List.not_mem_nil,
                  or_false] at listed
                rcases listed with rfl | rfl | rfl
                · exact short₁
                · exact short₃
                · exact short₄
  rw [getprereq]
  refine Post.then fun _ s₁ => ?_
  apply post_getSym
  split
  · exact post_online _
  · refine Post.then fun _ s₂ => Post.bind (loop fuel [] s₂ (by simp [Fit])) fun _ _ fit => ?_
    exact post_pure fit

theorem fit_subsys {ss : Subsys} : Fit ss.strings ↔
    ss.name.length < Strsize ∧ ss.id.length < Strsize ∧ ss.exp.length < Strsize ∧
      Fit (ss.rep.flatMap markStrings) ∧ Fit (ss.prereq.flatMap fun pr => pr.pq.flatMap markStrings) := by
  simp only [Fit, Subsys.strings, List.forall_mem_cons, List.forall_mem_append]

theorem fit_image {im : Image} : Fit im.strings ↔
    im.name.length < Strsize ∧ im.id.length < Strsize ∧ Fit (im.subsys.flatMap Subsys.strings) := by
  simp only [Fit, Image.strings, List.forall_mem_cons]

theorem fit_prod {prod : Prod} : Fit prod.strings ↔
    prod.name.length < Strsize ∧ prod.id.length < Strsize ∧ Fit (prod.image.flatMap Image.strings) := by
  simp only [Fit, Prod.strings, List.forall_mem_cons]

theorem fit_more {A : Type} {l : List A} {a : A} {f : A → List Str} (fit : Fit (l.flatMap f))
    (one : Fit (f a)) : Fit ((l ++ [a]).flatMap f) := by
  rw [List.flatMap_append, fit_append, List.flatMap_singleton]
  exact ⟨fit, one⟩

theorem subsys_fits {imName : Str} {version : Int} (pr : prName.length < Strsize)
    (im : imName.length < Strsize) (fuel : Nat) (ss : Subsys) (fit : Fit ss.strings) (s : State) :
    Post (getsubsysLoop outside getenv prName imName version fuel ss) s fun a _ => Fit a.strings := by
  induction fuel generalizing ss s with
  | zero => exact post_unknown
  | succ fuel ih =>
      obtain ⟨name, id, exp, rep, prereq⟩ := fit_subsys.mp fit
      rw [getsubsysLoop]
      apply post_getSym
      generalize s.sym = sym
      cases sym with
      | eof => exact post_online _
      | dot => exact Post.then fun _ _ => post_pure fit
      | id =>
          refine Post.bind (strval_fits .scan s) fun p s' short => ih _ ?_ s'
          exact fit_subsys.mpr ⟨name, short, exp, rep, prereq⟩
      | exp =>
          refine Post.bind (strval_fits .scan s) fun p s' short => ih _ ?_ s'
          exact fit_subsys.mpr ⟨name, id, short, rep, prereq⟩
      | default | main =>
          refine Post.then fun _ s' => ih _ ?_ s'
          exact fit
      | prereq =>
          refine Post.bind (getprereq_fits fuel s) fun g s' marks => ih _ ?_ s'
          exact fit_subsys.mpr ⟨name, id, exp, rep, fit_more prereq marks⟩
      | replaces =>
          have names : Fit [prName, imName, ss.name] := by
            simp only [Fit, List.forall_mem_cons]
            exact ⟨pr, im, name, by simp⟩
          refine Post.bind (getreplaces_fits names s) fun m s' mark => ih _ ?_ s'
          exact fit_subsys.mpr ⟨name, id, exp, fit_more rep mark, prereq⟩
      | error | image | product | subsys | version | padsize | add | lpar | rpar | order =>
          exact post_online _

theorem image_fits (pr : prName.length < Strsize) (fuel : Nat) (im : Image) (fit : Fit im.strings)
    (s : State) : Post (getimageLoop outside getenv prName fuel im) s fun a _ => Fit a.strings := by
  induction fuel generalizing im s with
  | zero => exact post_unknown
  | succ fuel ih =>
      obtain ⟨name, id, subsys⟩ := fit_image.mp fit
      rw [getimageLoop]
      apply post_getSym
      generalize s.sym = sym
      cases sym with
      | eof => exact post_online _
      | dot => exact Post.then fun _ _ => post_pure fit
      | id =>
          refine Post.bind (strval_fits .scan s) fun p s' short => ih _ ?_ s'
          exact fit_image.mpr ⟨name, short, subsys⟩
      | version | padsize | order | add =>
          refine Post.then fun _ s' => ih _ ?_ s'
          exact fit
      | subsys =>
          have one : Post (getsubsys outside getenv prName im.name im.version fuel) s fun ss _ =>
              Fit ss.strings := by
            rw [getsubsys]
            refine Post.bind (strval_fits .scan s) fun p s' short => ?_
            refine subsys_fits pr name fuel _ ?_ s'
            exact fit_subsys.mpr ⟨short, by simp, by simp, by simp [Fit], by simp [Fit]⟩
          refine Post.bind one fun ss s' entry => ih _ ?_ s'
          exact fit_image.mpr ⟨name, id, fit_more subsys entry⟩
      | error | exp | image | prereq | product | main | default | lpar | rpar | replaces =>
          exact post_online _

theorem prod_fits (fuel : Nat) (prod : Prod) (fit : Fit prod.strings) (s : State) :
    Post (getprodLoop outside getenv padsize fuel prod) s fun a _ => Fit a.strings := by
  induction fuel generalizing prod s with
  | zero => exact post_unknown
  | succ fuel ih =>
      obtain ⟨name, id, image⟩ := fit_prod.mp fit
      rw [getprodLoop]
      apply post_getSym
      generalize s.sym = sym
      cases sym with
      | eof => exact post_online _
      | dot => exact Post.then fun _ _ => post_pure fit
      | id =>
          refine Post.bind (strval_fits .scan s) fun p s' short => ih _ ?_ s'
          exact fit_prod.mpr ⟨name, short, image⟩
      | image =>
          have one : Post (getimage outside getenv padsize prod.name fuel) s fun im _ => Fit im.strings := by
            rw [getimage]
            refine Post.bind (strval_fits .scan s) fun p s' short => ?_
            refine image_fits name fuel _ ?_ s'
            exact fit_image.mpr ⟨short, by simp, by simp [Fit]⟩
          refine Post.bind one fun im s' entry => ih _ ?_ s'
          exact fit_prod.mpr ⟨name, id, fit_more image entry⟩
      | error | exp | prereq | product | subsys | version | main | default | padsize | add | lpar | rpar
        | replaces | order => exact post_online _

theorem spec_fits (fuel : Nat) (spec : List Prod) (fit : Fit (spec.flatMap Prod.strings)) (s : State) :
    Post (parsespecLoop outside getenv padsize fuel spec) s fun a _ => Fit (a.flatMap Prod.strings) := by
  induction fuel generalizing spec s with
  | zero => exact post_unknown
  | succ fuel ih =>
      rw [parsespecLoop]
      apply post_getSym
      split
      · have one : Post (getprod outside getenv padsize fuel) s fun prod _ => Fit prod.strings := by
          rw [getprod]
          refine Post.bind (strval_fits .scan s) fun p s' short => ?_
          refine prod_fits fuel _ ?_ s'
          exact fit_prod.mpr ⟨short, by simp, by simp [Fit]⟩
        refine Post.bind one fun prod s' entry => ih _ ?_ s'
        exact fit_more fit entry
      · split
        · exact post_online _
        · exact post_pure fit

/-! ## Texts whose strings fit -/

theorem number_good (v : BitVec 32) : (Tok.number v.toInt).Good := ⟨BitVec.le_toInt v, BitVec.toInt_lt⟩

theorem order_good (v : BitVec 16) : (Tok.number v.toInt).Good := by
  have low := BitVec.le_toInt v
  have high := BitVec.toInt_lt (x := v)
  constructor <;> omega

theorem string_good {p : CString} (short : p.bytes.length < Strsize) : (Tok.string p.bytes).Good :=
  ⟨p.whole, short⟩

theorem key_good {k : Sym} (known : k ≠ .eof ∧ k ≠ .error) : (Tok.key k).Good := known

theorem allGood_cons {t : Tok} {ts : List Tok} : AllGood (t :: ts) ↔ t.Good ∧ AllGood ts :=
  List.forall_mem_cons

theorem allGood_append {ts us : List Tok} : AllGood (ts ++ us) ↔ AllGood ts ∧ AllGood us :=
  List.forall_mem_append

theorem allGood_nil : AllGood [] := by simp [AllGood]

theorem allGood_all {A : Type} {l : List A} {f : A → List Tok} (each : ∀ a ∈ l, AllGood (f a)) :
    AllGood (l.flatMap f) := by
  intro t listed
  obtain ⟨a, inside, here⟩ := List.mem_flatMap.mp listed
  exact each a inside t here

theorem fit_each {A B : Type} {l : List A} {f : A → B} {g : B → List Str}
    (fit : Fit ((l.map f).flatMap g)) (a : A) (inside : a ∈ l) : Fit (g (f a)) :=
  fun p listed => fit p (List.mem_flatMap.mpr ⟨f a, List.mem_map_of_mem inside, listed⟩)

theorem fit_all {A B : Type} {l : List A} {f : A → B} {g : B → List Str}
    (each : ∀ a ∈ l, Fit (g (f a))) : Fit ((l.map f).flatMap g) := by
  intro p listed
  obtain ⟨b, inside, here⟩ := List.mem_flatMap.mp listed
  obtain ⟨a, origin, rfl⟩ := List.mem_map.mp inside
  exact each a origin p here

theorem replaces_good {imName ssName : Str} {version : Int} (r : Replaces)
    (fit : Fit (markStrings (r.toMark prName imName ssName version))) : AllGood r.toks := by
  cases r with
  | self => simp [Replaces.toks, AllGood, Tok.Good]
  | mark p i s l h =>
      simp only [Fit, markStrings, Replaces.toMark, List.forall_mem_cons] at fit
      simp only [Replaces.toks, allGood_cons]
      exact ⟨key_good (by simp), string_good fit.1, string_good fit.2.1, string_good fit.2.2.1,
        number_good l, number_good h, allGood_nil⟩

theorem needed_good (m : Needed) (fit : Fit (markStrings m.toMark)) : AllGood m.toks := by
  simp only [Fit, markStrings, Needed.toMark, List.forall_mem_cons] at fit
  simp only [Needed.toks, allGood_cons]
  exact ⟨string_good fit.1, string_good fit.2.1, string_good fit.2.2.1, number_good m.lowvers, allGood_nil⟩

theorem group_good (g : Group) (fit : Fit (g.toPrereq.pq.flatMap markStrings)) : AllGood g.toks := by
  simp only [Group.toks, List.cons_append, allGood_cons, allGood_append]
  exact ⟨key_good (by simp), key_good (by simp), allGood_all fun m inside => needed_good m (fit_each fit m inside),
    key_good (by simp), allGood_nil⟩

theorem subsys_good {imName : Str} {version : Int} (d : SubsysText)
    (fit : Fit (d.toSubsys prName imName version).strings) : AllGood d.toks := by
  obtain ⟨name, id, exp, rep, prereq⟩ := fit_subsys.mp fit
  have flags : AllGood (if d.default then [.key .default] else []) ∧
      AllGood (if d.main then [.key .main] else []) := by
    constructor <;> split <;> simp [AllGood, Tok.Good]
  have tables : AllGood (d.prereq.flatMap Group.toks) ∧ AllGood (d.rep.flatMap Replaces.toks) :=
    ⟨allGood_all fun g inside => group_good g (fit_each prereq g inside),
      allGood_all fun r inside => replaces_good r (fit_each rep r inside)⟩
  simp only [SubsysText.toks, List.cons_append, allGood_cons, allGood_append]
  exact ⟨key_good (by simp), string_good name, ⟨⟨⟨flags, ⟨key_good (by simp), string_good id,
    key_good (by simp), string_good exp, allGood_nil⟩⟩, tables.1⟩, tables.2⟩, key_good (by simp), allGood_nil⟩

theorem image_good (d : ImageText) (fit : Fit (d.toImage prName).strings) : AllGood d.toks := by
  obtain ⟨name, id, subsys⟩ := fit_image.mp fit
  have flag : AllGood (if d.add then [.key .add] else []) := by
    split <;> simp [AllGood, Tok.Good]
  have tables := allGood_all fun ss inside => subsys_good ss (fit_each subsys ss inside)
  simp only [ImageText.toks, List.cons_append, allGood_cons, allGood_append]
  exact ⟨key_good (by simp), string_good name, key_good (by simp), number_good d.version, ⟨⟨flag,
    key_good (by simp), string_good id, key_good (by simp), order_good d.order, key_good (by simp),
    number_good d.padsize, allGood_nil⟩, tables⟩, key_good (by simp), allGood_nil⟩

theorem prod_good (d : ProdText) (fit : Fit d.toProd.strings) : AllGood d.toks := by
  obtain ⟨name, id, image⟩ := fit_prod.mp fit
  have tables := allGood_all fun im inside => image_good im (fit_each image im inside)
  simp only [ProdText.toks, List.cons_append, allGood_cons, allGood_append]
  exact ⟨key_good (by simp), string_good name, key_good (by simp), string_good id, tables, key_good (by simp),
    allGood_nil⟩

theorem subsys_readable {imName : Str} {version : Int} (pr : prName.length < Strsize)
    (im : imName.length < Strsize) (d : SubsysText) (readable : d.Readable) :
    Fit (d.toSubsys prName imName version).strings := by
  refine fit_subsys.mpr ⟨readable.name, readable.id, readable.exp, fit_all fun r inside => ?_, ?_⟩
  · have short := readable.rep r inside
    cases r with
    | self =>
        simp only [Fit, markStrings, Replaces.toMark, List.forall_mem_cons]
        exact ⟨pr, im, readable.name, by simp⟩
    | mark p i s l h =>
        simp only [Fit, markStrings, Replaces.toMark, List.forall_mem_cons]
        exact ⟨short.1, short.2.1, short.2.2.1, by simp⟩
  · simp [SubsysText.toSubsys, readable.prereq, Fit]

theorem image_readable (pr : prName.length < Strsize) (d : ImageText) (readable : d.Readable) :
    Fit (d.toImage prName).strings :=
  fit_image.mpr ⟨readable.name, readable.id,
    fit_all fun ss inside => subsys_readable pr readable.name ss (readable.subsys ss inside)⟩

theorem prod_readable (d : ProdText) (readable : d.Readable) : Fit d.toProd.strings :=
  fit_prod.mpr ⟨readable.name, readable.id,
    fit_all fun im inside => image_readable readable.name im (readable.image im inside)⟩

/-! ## Whole files -/

/-- The text form of a specification. -/
def print (l : List ProdText) : Str := text (l.flatMap ProdText.toks)

theorem spec_good (l : List ProdText) (fit : Fit ((l.map ProdText.toProd).flatMap Prod.strings)) :
    AllGood (l.flatMap ProdText.toks) :=
  allGood_all fun d inside => prod_good d (fit_each fit d inside)

theorem spec_outcome (l : List ProdText) (good : AllGood (l.flatMap ProdText.toks)) :
    Ends (fun fuel => parsespec outside getenv padsize fuel (print l))
      (Outcome (fun _ => False) (∀ pr ∈ l, pr.Readable) (l.map ProdText.toProd) (look 1 false [])) := by
  have begins : ∀ fuel, parsespec outside getenv padsize fuel (print l) =
      parsespecLoop outside getenv padsize fuel [] (look 1 false (l.flatMap ProdText.toks)) :=
    fun fuel => run_bind (nextsym_text good)
  refine Ends.congr begins ?_
  have last : ∀ spec, Ends (fun fuel => parsespecLoop outside getenv padsize fuel spec (look 1 false []))
      (· = .ok spec (look 1 false [])) :=
    fun spec => Ends.step (fun fuel => rfl) (Ends.always fun _ => rfl)
  have outcome := (specLevel outside getenv padsize).run (fun _ _ _ => rfl) spec_turn
    (fun _ d rest => prod_outcome d) (look 1 false []) last l [] (by simpa using good)
  rw [spec_all] at outcome
  simpa [specLevel] using outcome

/-- A specification is what its text is read as, and only allocated memory is written, if and only if
    no subsystem has prerequisites, every string fits, and no mark names a product `self`. -/
theorem parsespec_iff (outside : Int → Bool) (getenv : Str → Option Str) (padsize : Int)
    (l : List ProdText) :
    (∃ s, Ends (fun fuel => parsespec outside getenv padsize fuel (print l))
        (· = .ok (l.map ProdText.toProd) s) ∧ s.wild = false) ↔
      ∀ pr ∈ l, pr.Readable := by
  constructor
  · rintro ⟨s, ⟨N, ends⟩, -⟩
    have fit : Fit ((l.map ProdText.toProd).flatMap Prod.strings) := by
      have post : Post (nextsym outside getenv >>= fun _ => parsespecLoop outside getenv padsize N [])
          ⟨print l, 1, .eof, false⟩ fun a _ => Fit (a.flatMap Prod.strings) :=
        Post.then fun _ s' => spec_fits N [] (by simp [Fit]) s'
      exact post _ s (ends N (Nat.le_refl N))
    obtain ⟨M, outcome⟩ := @spec_outcome outside getenv padsize l (spec_good l fit)
    by_contra unreadable
    have wrong := (outcome (max N M) (Nat.le_max_right ..)).no unreadable _ s
      (ends (max N M) (Nat.le_max_left ..))
    simp at wrong
  · intro readable
    have good := spec_good l (fit_all fun d inside => prod_readable d (readable d inside))
    obtain ⟨N, outcome⟩ := @spec_outcome outside getenv padsize l good
    exact ⟨look 1 false [], ⟨N, fun fuel enough => (outcome fuel enough).yes readable⟩, rfl⟩

/-- A product `p` of one image `i` of one subsystem `s`, with `prereq ( 'p' 'i' 's' 1 )`. -/
def needy : ProdText :=
  let p : CString := ⟨[112], by decide⟩
  let i : CString := ⟨[105], by decide⟩
  let s : CString := ⟨[115], by decide⟩
  let ss : SubsysText := ⟨s, s, s, false, false, [⟨⟨p, i, s, 1⟩, []⟩], []⟩
  ⟨p, p, [⟨i, i, 1, 0, 0, false, [ss]⟩]⟩

theorem needy_unreadable : ¬needy.Readable := fun readable => by
  have subsys := (readable.image _ (List.mem_singleton_self _)).subsys _ (List.mem_singleton_self _)
  cases subsys.prereq

theorem needy_not_read : ¬∃ s, Ends (fun fuel => parsespec (fun _ => false) (fun _ => none) 0 fuel (print [needy]))
    (· = .ok ([needy].map ProdText.toProd) s) ∧ s.wild = false := by
  have fit : Fit (([needy].map ProdText.toProd).flatMap Prod.strings) := by
    unfold Fit
    decide
  rintro ⟨s, ⟨N, ends⟩, -⟩
  obtain ⟨M, outcome⟩ := @spec_outcome (fun _ => false) (fun _ => none) 0 [needy] (spec_good [needy] fit)
  have unreadable : ¬∀ pr ∈ [needy], pr.Readable :=
    fun all => needy_unreadable (all needy (List.mem_singleton_self _))
  have wrong := (outcome (max N M) (Nat.le_max_right ..)).no unreadable _ s
    (ends (max N M) (Nat.le_max_left ..))
  simp at wrong

end

end Irix.Inst.Spec
