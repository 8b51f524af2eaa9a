import Irix.Inst.Parsespec
import Irix.Inst.RecordFormat
import Mathlib.Data.Nat.Digits.Lemmas
import Mathlib.Tactic.IntervalCases

/-! # The text of a specification

A specification is written as tokens with a blank before each: keywords, numbers, and strings in quotes
with a backslash before what would not be taken for itself.
-/

namespace Irix.Inst.Spec

/-! ## Tokens -/

/-- The text of a symbol. -/
def Sym.word (sym : Sym) : Str := ((keywords.find? fun k => k.2 = sym).map fun k => k.1).getD []

/-- The digits of a number. -/
def digits (n : Int) : Str :=
  if n = 0 then [48] else (Nat.digits 10 n.natAbs).reverse.map fun d => UInt8.ofNat (48 + d)

def decimal (n : Int) : Str := if n < 0 then 45 :: digits n else digits n

inductive Tok where
  | key (sym : Sym)
  | self
  | number (n : Int)
  | string (p : Str)

def special (c : UInt8) : Bool := c == 39 || c == backslash || c == LPAR || c == RPAR

def escape (p : Str) : Str := p.flatMap fun c => if special c then [backslash, c] else [c]

/-- What `token` makes of it. -/
def Tok.value : Tok → Str
  | .key sym => sym.word
  | .self => Spec.self
  | .number n => decimal n
  | .string p => p

def Tok.write : Tok → Str
  | .string p => 39 :: escape p ++ [39]
  | t => t.value

/-- A token that is read back. -/
def Tok.Good : Tok → Prop
  | .key sym => sym ≠ .eof ∧ sym ≠ .error
  | .self => True
  | .number n => -2 ^ 31 ≤ n ∧ n < 2 ^ 31
  | .string p => 0 ∉ p ∧ p.length < Strsize

def text (ts : List Tok) : Str := ts.flatMap fun t => blank :: t.write

section

variable {outside : Int → Bool} {getenv : Str → Option Str} {p r : Str} {c : UInt8} {n : Nat} {ts : List Tok}
  {t : Tok} {sym : Sym} {w : Bool}

/-- What stands for itself without quotes. -/
def Bare (c : UInt8) : Prop :=
  spaceByte c = false ∧ isQuote c = false ∧ c ≠ backslash ∧ c ≠ 36 ∧ c ≠ 35 ∧ c ≠ 0 ∧ c ≠ LPAR ∧ c ≠ RPAR

instance decidableBare (c : UInt8) : Decidable (Bare c) := by
  unfold Bare
  infer_instance

instance decidableEachBare (p : Str) : Decidable (∀ c ∈ p, Bare c) := List.decidableBAll _ p

/-- What is behind a token. -/
def Behind (r : Str) : Prop := ∀ c ∈ r.head?, c = blank

theorem behind_text (ts : List Tok) : Behind (text ts) := by
  intro c first
  cases ts with
  | nil => cases first
  | cons t ts =>
      cases first
      rfl

section

attribute [local simp] getnb

theorem getnb_blank (n : Nat) (c : UInt8) (r : Str) (dark : spaceByte c = false) (plain : c ≠ 35) :
    getnb false n (blank :: c :: r) = (n, c :: r) := by
  have line := newline_of_dark dark
  have space : c ≠ 32 ∧ c ≠ 9 := by
    constructor
    · rintro rfl
      exact absurd dark (by decide)
    · rintro rfl
      exact absurd dark (by decide)
  simp [blank, newline, line, plain, space]

end

theorem scan_bare (each : ∀ c ∈ p, Bare c) (behind : Behind r) : scan none (p ++ r) = some (p, r) := by
  induction p with
  | nil =>
      cases r with
      | nil => rfl
      | cons c r =>
          obtain rfl : c = blank := behind c rfl
          have space : spaceByte blank = true := by decide
          rw [List.nil_append, scan.eq_def]
          simp [space]
  | cons c p ih =>
      obtain ⟨dark, -, plain, -⟩ := each c (List.mem_cons_self ..)
      rw [List.cons_append, scan.eq_def]
      simp only [dark, plain, Bool.false_eq_true, if_false, ih fun d listed => each d (.tail _ listed),
        Option.map_some]

theorem scan_quoted (p r : Str) : scan (some 39) (escape p ++ 39 :: r) = some (p, r) := by
  induction p with
  | nil =>
      rw [show escape [] ++ 39 :: r = 39 :: r from rfl, scan.eq_def]
      simp
  | cons c p ih =>
      have step : escape (c :: p) = (if special c then [backslash, c] else [c]) ++ escape p := rfl
      rw [step]
      cases need : special c with
      | true =>
          rw [if_pos rfl, List.append_assoc, List.cons_append, List.cons_append, List.nil_append,
            scan.eq_def]
          have other : (backslash == (39 : UInt8)) = false := by decide
          simp only [other, Bool.false_eq_true, if_false, if_true, ih, Option.map_some]
      | false =>
          simp only [special, Bool.or_eq_false_iff, beq_eq_false_iff_ne] at need
          rw [if_neg (by decide), List.append_assoc, List.singleton_append, scan.eq_def]
          simp [need, ih]

theorem envsub_plain (each : ∀ c ∈ p, Bare c) : envsub outside getenv (p.length + 1) p = some p := by
  induction p with
  | nil => rfl
  | cons c p ih =>
      obtain ⟨-, -, plain, fixed, -⟩ := each c (List.mem_cons_self ..)
      rw [List.length_cons, envsub.eq_def]
      simp only [plain, fixed, if_false, ne_eq, not_false_eq_true, if_true,
        ih fun d listed => each d (.tail _ listed), Option.map_some]

theorem cut_short (whole : 0 ∉ p) (short : p.length < Strsize) :
    (p.take (Strsize - 1)).takeWhile (· ≠ 0) = p := by
  rw [List.take_of_length_le (Nat.le_sub_one_of_lt short), List.takeWhile_eq_self_iff]
  intro c listed
  simp only [decide_not, Bool.not_eq_true', decide_eq_false_iff_not]
  rintro rfl
  exact whole listed

/-- A bare token. -/
theorem token_bare (some : p ≠ []) (short : p.length < Strsize) (each : ∀ c ∈ p, Bare c)
    (behind : Behind r) :
    token outside getenv ⟨blank :: (p ++ r), n, sym, w⟩ = .ok p ⟨r, n, sym, w⟩ := by
  cases p with
  | nil => exact absurd rfl some
  | cons c p =>
      obtain ⟨dark, unquoted, -, -, plain, -, lpar, rpar⟩ := each c (List.mem_cons_self ..)
      have whole : 0 ∉ c :: p := fun listed => (each 0 listed).2.2.2.2.2.1 rfl
      have scanned := scan_bare each behind
      rw [List.cons_append] at scanned ⊢
      rw [token, getnb_blank n c _ dark plain]
      simp only [unquoted, Bool.false_eq_true, if_false, List.head?_cons, Option.some.injEq, lpar, rpar,
        or_self, scanned, cut_short whole short, true_or, if_true, envsub_plain each, short]

theorem escape_first (p r : Str) (paren : c = LPAR ∨ c = RPAR) :
    (escape p ++ 39 :: r).head? ≠ some c := by
  have quote : (39 : UInt8) ≠ LPAR ∧ (39 : UInt8) ≠ RPAR := by decide
  have slash : backslash ≠ LPAR ∧ backslash ≠ RPAR := by decide
  cases p with
  | nil => rcases paren with rfl | rfl <;> simp [escape, quote]
  | cons d p =>
      have step : escape (d :: p) = (if special d then [backslash, d] else [d]) ++ escape p := rfl
      rw [step]
      cases need : special d with
      | true => rcases paren with rfl | rfl <;> simp [slash]
      | false =>
          simp only [special, Bool.or_eq_false_iff, beq_eq_false_iff_ne] at need
          rcases paren with rfl | rfl
          · simpa using need.1.2
          · simpa using need.2

theorem token_string (whole : 0 ∉ p) (short : p.length < Strsize) :
    token outside getenv ⟨blank :: (39 :: escape p ++ [39] ++ r), n, sym, w⟩ = .ok p ⟨r, n, sym, w⟩ := by
  have quote : isQuote 39 = true := by decide
  have lpar := escape_first p r (Or.inl (rfl : LPAR = LPAR))
  have rpar := escape_first p r (Or.inr (rfl : RPAR = RPAR))
  have scanned := scan_quoted p r
  have single : ¬((some 39 : Option UInt8) = none ∨ (some 39 : Option UInt8) = some 34) := by decide
  rw [show blank :: (39 :: escape p ++ [39] ++ r) = blank :: 39 :: (escape p ++ 39 :: r) by simp,
    token, getnb_blank n 39 _ (by decide) (by decide)]
  generalize escape p ++ 39 :: r = s at lpar rpar scanned
  simp only [quote, if_true, lpar, rpar, or_self, if_false, scanned, cut_short whole short, single]

theorem token_paren (c : UInt8) (paren : c = LPAR ∨ c = RPAR) (r : Str) :
    token outside getenv ⟨blank :: ([c] ++ r), n, sym, w⟩ = .ok [c] ⟨r, n, sym, w⟩ := by
  rcases paren with rfl | rfl
  · rw [token, List.singleton_append, getnb_blank n _ _ (by decide) (by decide)]
    simp [show isQuote LPAR = false by decide]
  · rw [token, List.singleton_append, getnb_blank n _ _ (by decide) (by decide)]
    simp [show isQuote RPAR = false by decide]

/-! ## Numbers -/

theorem long_step (a b : Int) : long (long a * 10 + b) = long (a * 10 + b) := by
  simp only [long, Int.bmod_def]
  omega

theorem digit_toNat {d : Nat} (small : d < 10) : (UInt8.ofNat (48 + d)).toNat = 48 + d :=
  Nat.mod_eq_of_lt (by omega)

theorem digits_each (m : Int) : ∀ c ∈ digits m, 48 ≤ c.toNat ∧ c.toNat ≤ 57 := by
  intro c listed
  rw [digits] at listed
  split at listed
  · rw [List.mem_singleton] at listed
    subst listed
    decide
  · obtain ⟨d, inside, rfl⟩ := List.mem_map.mp listed
    have small := Nat.digits_lt_base (by decide) (List.mem_reverse.mp inside)
    rw [digit_toNat small]
    omega

theorem digits_some (m : Int) : digits m ≠ [] := by
  rw [digits]
  split
  · simp
  · next some => simp [Nat.digits_eq_nil_iff_eq_zero, some]

theorem digits_short {m : Int} (low : -2 ^ 31 ≤ m) (high : m < 2 ^ 31) : (digits m).length ≤ 10 := by
  rw [digits]
  split
  · simp
  · rw [List.length_map, List.length_reverse, Nat.digits_length_le_iff (by decide)]
    omega

/-- What `atol` makes of the digits. -/
theorem digits_fold (m : Int) : (digits m).foldl (fun n c => long (n * 10 + c.toNat - 48)) 0 =
    long m.natAbs := by
  have steps : ∀ (l : List Nat) (a : Int), (∀ d ∈ l, d < 10) →
      (l.map fun d => UInt8.ofNat (48 + d)).foldl (fun n c => long (n * 10 + c.toNat - 48)) (long a) =
        long (l.foldl (fun (n : Int) (d : Nat) => n * 10 + d) a) := by
    intro l
    induction l with
    | nil => exact fun a _ => rfl
    | cons d l ih =>
        intro a small
        have here := digit_toNat (small d (List.mem_cons_self ..))
        rw [List.map_cons, List.foldl_cons, List.foldl_cons, here, ← ih _ fun e listed => small e (.tail _ listed)]
        congr 1
        rw [← long_step a d]
        congr 1
        push_cast
        ring
  have total : ∀ l : List Nat, l.foldr (fun (d : Nat) (n : Int) => n * 10 + d) 0 = (Nat.ofDigits 10 l : Nat) := by
    intro l
    induction l with
    | nil => rfl
    | cons d l ih =>
        rw [List.foldr_cons, ih, Nat.ofDigits_cons]
        push_cast
        ring
  rw [digits]
  split
  · next zero =>
      subst zero
      rfl
  · have start : (0 : Int) = long 0 := rfl
    rw [start, steps _ _ fun d listed => Nat.digits_lt_base (by decide) (List.mem_reverse.mp listed),
      List.foldl_reverse, total, Nat.ofDigits_digits]

theorem decimal_cons (m : Int) : ∃ c p, decimal m = c :: p ∧ (c = 45 ∨ 48 ≤ c.toNat ∧ c.toNat ≤ 57) := by
  rw [decimal]
  split
  · exact ⟨45, digits m, rfl, Or.inl rfl⟩
  · cases eq : digits m with
    | nil => exact absurd eq (digits_some m)
    | cons c p => exact ⟨c, p, rfl, Or.inr (digits_each m c (by simp [eq]))⟩

theorem takeWhile_digits (m : Int) :
    ((digits m).takeWhile fun c => decide (48 ≤ c ∧ c ≤ 57)) = digits m := by
  rw [List.takeWhile_eq_self_iff]
  intro c listed
  have range := digits_each m c listed
  rw [decide_eq_true_iff, UInt8.le_iff_toNat_le, UInt8.le_iff_toNat_le]
  exact range

theorem atol_decimal {m : Int} (low : -2 ^ 31 ≤ m) (high : m < 2 ^ 31) : atol (decimal m) = m := by
  have fold := digits_fold m
  have whole := takeWhile_digits m
  rw [decimal]
  split
  · next negative =>
      simp only [atol]
      rw [List.dropWhile_cons_of_neg (by decide)]
      simp only [whole, fold, if_true]
      simp only [long, Int.bmod_def]
      omega
  · next positive =>
      cases eq : digits m with
      | nil => exact absurd eq (digits_some m)
      | cons c p =>
          have range := digits_each m c (by simp [eq])
          have other : ∀ d : UInt8, d.toNat < 48 → c ≠ d := by
            rintro d small rfl
            omega
          have kept : ((c :: p).dropWhile fun c => c == 32 || c == 9) = c :: p := by
            simp [other 32 (by decide), other 9 (by decide)]
          rw [eq] at whole fold
          simp only [atol]
          rw [kept]
          split
          · next same => exact absurd (List.cons.inj same).1 (other 45 (by decide))
          · next same => exact absurd (List.cons.inj same).1 (other 43 (by decide))
          · simp only [whole, fold, Bool.false_eq_true, if_false]
            simp only [long, Int.bmod_def]
            omega

theorem bare_digit {c : UInt8} (digit : c = 45 ∨ 48 ≤ c.toNat ∧ c.toNat ≤ 57) : Bare c := by
  rcases digit with rfl | ⟨low, high⟩
  · decide
  · have same : c = UInt8.ofNat c.toNat := by simp
    rw [same]
    generalize c.toNat = k at low high
    interval_cases k <;> decide

theorem decimal_bare (m : Int) : ∀ c ∈ decimal m, Bare c := by
  intro c listed
  apply bare_digit
  rw [decimal] at listed
  split at listed
  · rcases List.mem_cons.mp listed with first | later
    · exact Or.inl first
    · exact Or.inr (digits_each m c later)
  · exact Or.inr (digits_each m c listed)

theorem decimal_short {m : Int} (low : -2 ^ 31 ≤ m) (high : m < 2 ^ 31) :
    (decimal m).length < Strsize := by
  have short := digits_short low high
  rw [decimal]
  split
  · exact Nat.lt_of_le_of_lt (Nat.succ_le_succ short) (by decide)
  · exact Nat.lt_of_le_of_lt short (by decide)

/-! ## Texts of tokens -/

theorem word_bare (known : sym ≠ .eof ∧ sym ≠ .error) (lpar : sym ≠ .lpar) (rpar : sym ≠ .rpar) :
    sym.word ≠ [] ∧ sym.word.length < Strsize ∧ ∀ c ∈ sym.word, Bare c := by
  cases sym with
  | eof => exact absurd rfl known.1
  | error => exact absurd rfl known.2
  | lpar => exact absurd rfl lpar
  | rpar => exact absurd rfl rpar
  | dot | exp | id | image | prereq | product | subsys | version | main | default | padsize | add
    | replaces | order => decide

theorem symOf_word (known : sym ≠ .eof ∧ sym ≠ .error) : symOf sym.word = sym := by
  cases sym with
  | eof => exact absurd rfl known.1
  | error => exact absurd rfl known.2
  | dot | exp | id | image | prereq | product | subsys | version | main | default | padsize | add
    | replaces | order | lpar | rpar => decide

/-- No keyword begins like a number. -/
theorem symOf_decimal (m : Int) : symOf (decimal m) = .error := by
  obtain ⟨c, p, eq, digit⟩ := decimal_cons m
  have other : ∀ d : UInt8, (d ≠ 45 ∧ (d.toNat < 48 ∨ 57 < d.toNat)) → (c == d) = false := by
    rintro d ⟨minus, range⟩
    rw [beq_eq_false_iff_ne]
    rintro rfl
    rcases digit with same | digit
    · exact minus same
    · omega
  rw [eq, symOf, if_neg (by simp)]
  simp [keywords, List.lookup_cons, other]

theorem decimal_self (m : Int) : decimal m ≠ self := by
  obtain ⟨c, p, eq, digit⟩ := decimal_cons m
  rw [eq]
  intro same
  obtain rfl := (List.cons.inj same).1
  exact absurd digit (by decide)

theorem text_cons (t : Tok) (ts : List Tok) : text (t :: ts) = blank :: (t.write ++ text ts) := rfl

/-- A token is read back. -/
theorem token_text (good : t.Good) :
    token outside getenv ⟨text (t :: ts), n, sym, w⟩ = .ok t.value ⟨text ts, n, sym, w⟩ := by
  rw [text_cons]
  cases t with
  | key k =>
      by_cases lpar : k = .lpar
      · subst lpar
        exact token_paren LPAR (Or.inl rfl) _
      · by_cases rpar : k = .rpar
        · subst rpar
          exact token_paren RPAR (Or.inr rfl) _
        · obtain ⟨some, short, each⟩ := word_bare good lpar rpar
          exact token_bare some short each (behind_text ts)
  | self => exact token_bare (by decide) (by decide) (by decide) (behind_text ts)
  | number m =>
      have some : decimal m ≠ [] := by
        obtain ⟨c, p, eq, -⟩ := decimal_cons m
        simp [eq]
      exact token_bare some (decimal_short good.1 good.2) (decimal_bare m) (behind_text ts)
  | string p => exact token_string good.1 good.2

end

/-! ## Results of a parser -/

section

variable {α β : Type} {p : Parse α} {f : α → Parse β} {s s' : State} {a : α}

theorem run_bind (ran : p s = .ok a s') : (p >>= f) s = f a s' := by
  show Parse.bind p f s = _
  simp only [Parse.bind, ran]

theorem run_getSym (f : Sym → Parse β) (s : State) : (getSym >>= f) s = f s.sym s := rfl

/-- If it returns, this holds of what it returns. -/
def Post (p : Parse α) (s : State) (Q : α → State → Prop) : Prop := ∀ a s', p s = .ok a s' → Q a s'

variable {Q : α → State → Prop} {R : β → State → Prop}

theorem Post.bind (first : Post p s Q) (next : ∀ a s', Q a s' → Post (f a) s' R) :
    Post (p >>= f) s R := by
  intro b t result
  change Parse.bind p f s = _ at result
  rw [Parse.bind] at result
  split at result
  next a s' ran => exact next a s' (first a s' ran) b t result
  next => cases result
  next => cases result

/-- Of what the first one returns nothing is known. -/
theorem Post.then (next : ∀ a s', Post (f a) s' R) : Post (p >>= f) s R :=
  Post.bind (fun _ _ _ => trivial) fun a s' (_ : True) => next a s'

theorem post_getSym {f : Sym → Parse β} (next : Post (f s.sym) s R) : Post (getSym >>= f) s R := next

theorem post_pure (holds : Q a s) : Post (pure a) s Q := by
  intro b t result
  cases result
  exact holds

theorem post_online (msg : String) : Post (online msg : Parse α) s Q := by
  intro b t result
  cases result

theorem post_unknown : Post (unknown : Parse α) s Q := by
  intro b t result
  cases result

theorem Post.mono {Q' : α → State → Prop} (post : Post p s Q) (le : ∀ a s, Q a s → Q' a s) : Post p s Q' :=
  fun a s' ran => le a s' (post a s' ran)

theorem post_of_run (ran : p s = .ok a s') (next : Post (f a) s' R) : Post (p >>= f) s R := by
  intro b t result
  rw [run_bind ran] at result
  exact next b t result

end

/-! ## Looking ahead -/

section

variable {outside : Int → Bool} {getenv : Str → Option Str} {p r : Str} {c : UInt8} {n : Nat} {ts : List Tok}
  {t : Tok} {sym : Sym} {w : Bool}

/-- The symbol of the first token. -/
def front : List Tok → Sym
  | [] => .eof
  | t :: _ => symOf t.value

/-- The first token has been taken for the next symbol. -/
def look (n : Nat) (w : Bool) (ts : List Tok) : State := ⟨text ts.tail, n, front ts, w⟩

/-- All of them are read back. -/
def AllGood (ts : List Tok) : Prop := ∀ t ∈ ts, t.Good

theorem AllGood.tail (good : AllGood (t :: ts)) : AllGood ts := fun t listed => good t (.tail _ listed)

theorem AllGood.head (good : AllGood (t :: ts)) : t.Good := good t (List.mem_cons_self ..)

theorem nextsym_text (good : AllGood ts) :
    nextsym outside getenv ⟨text ts, n, sym, w⟩ = .ok () (look n w ts) := by
  cases ts with
  | nil => rfl
  | cons t ts =>
      rw [nextsym, run_bind (token_text good.head)]
      rfl

theorem strval_stay (good : t.Good) :
    strval outside getenv .stay ⟨text (t :: ts), n, sym, w⟩ = .ok t.value ⟨text ts, n, sym, w⟩ := by
  rw [strval, run_bind (token_text good)]
  rfl

theorem strval_scan (good : AllGood (t :: ts)) :
    strval outside getenv .scan ⟨text (t :: ts), n, sym, w⟩ = .ok t.value (look n w ts) := by
  rw [strval, run_bind (token_text good.head)]
  exact run_bind (nextsym_text good.tail)

theorem longval_stay (good : t.Good) :
    longval outside getenv .stay ⟨text (t :: ts), n, sym, w⟩ = .ok (atol t.value) ⟨text ts, n, sym, w⟩ := by
  rw [longval, run_bind (token_text good)]
  rfl

theorem longval_scan (good : AllGood (t :: ts)) :
    longval outside getenv .scan ⟨text (t :: ts), n, sym, w⟩ = .ok (atol t.value) (look n w ts) := by
  rw [longval, run_bind (token_text good.head)]
  exact run_bind (nextsym_text good.tail)

end

end Irix.Inst.Spec
