import Irix.Inst.Record
import Mathlib.Algebra.Order.Group.Nat
import Mathlib.Data.FinEnum
import Mathlib.Data.List.TakeWhile
import Mathlib.Data.Nat.SuccPred
import Mathlib.Tactic.Common

/-! # Reading what was written of a record

`idb_read` undoes `idb_write` as long as no argument holds what only the reader
takes for special: a comma, a left parenthesis or a quote at the front.
-/

namespace Irix.Inst

open Lib Lib.Compare

/-! ## Characters and words -/

/-- A character that stands for itself in every field. -/
@[mk_iff] structure Itself (c : UInt8) : Prop where
  some : c ≠ 0
  dark : spaceByte c = false
  lpar : c ≠ LPAR
  rpar : c ≠ RPAR
  comma : c ≠ Inst.comma
  backslash : c ≠ Inst.backslash
  quote : isQuote c = false

instance (c : UInt8) : Decidable (Itself c) := decidable_of_iff' _ (itself_iff c)

/-- A user, group, path or attribute name. -/
@[mk_iff] structure Word (w : Str) : Prop where
  some : w ≠ []
  each : ∀ c ∈ w, Itself c
  short : w.length < 1024

/-- An argument of an attribute. -/
@[mk_iff] structure Arg (a : Str) : Prop where
  some : a ≠ []
  whole : 0 ∉ a
  short : a.length < 1024

/-- An argument that is read back. -/
@[mk_iff] structure Readable (a : Str) : Prop where
  comma : Inst.comma ∉ a
  lpar : LPAR ∉ a ∨ a = [LPAR]
  quote : ∀ c ∈ a.head?, isQuote c = false

instance (w : Str) : Decidable (Word w) := decidable_of_iff' _ (word_iff w)

instance (a : Str) : Decidable (Arg a) := decidable_of_iff' _ (arg_iff a)

instance (a : Str) : Decidable (Readable a) := decidable_of_iff' _ (readable_iff a)

section

variable {c : UInt8} {inside : Bool}

theorem Itself.delimiter (itself : Itself c) : delimiter inside c = false := by
  simp [Inst.delimiter, itself.dark, itself.lpar, itself.rpar, itself.comma]

theorem newline_space : spaceByte newline = true := by decide

theorem newline_of_dark (dark : spaceByte c = false) : c ≠ newline := by
  rintro rfl
  exact absurd newline_space (by rw [dark]; decide)

/-- The blank in front of a field. -/
theorem skip_blank (s : Str) : skip inside (blank :: s) = skip inside s := by
  have dark : spaceByte blank = true := by decide
  rw [skip.eq_def]
  simp [dark, show blank ≠ 0 by decide, show blank ≠ newline by decide, show blank ≠ comma by decide]

theorem skip_dark (some : c ≠ 0) (dark : spaceByte c = false) (s : Str) :
    skip inside (c :: s) = .char c s := by
  have apart := newline_of_dark dark
  rw [skip.eq_def]
  simp [some, dark, apart]

end

/-! ## Reading a word -/

theorem plain_word {w : Str} (each : ∀ c ∈ w, Itself c) {inside : Bool} {d : UInt8}
    (some : d ≠ 0) (stop : delimiter inside d = true) (s : Str) :
    plain inside (w ++ d :: s) = (w, d :: s) := by
  induction w with
  | nil =>
    rw [List.nil_append, plain.eq_def]
    simp [some, stop]
  | cons c w ih =>
    have itself := each c (List.mem_cons_self ..)
    have rest := ih fun c listed => each c (List.mem_cons_of_mem _ listed)
    rw [List.cons_append, plain.eq_def]
    simp [itself.some, itself.delimiter, itself.backslash, rest]

theorem getField_word {w : Str} (word : Word w) {inside : Bool} {d : UInt8} (some : d ≠ 0)
    (stop : delimiter inside d = true) (s : Str) (fieldType : FieldType) :
    getField ⟨w ++ d :: s, inside, fieldType⟩ = Option.some (w, ⟨d :: s, inside, .other⟩) := by
  obtain ⟨c, w, rfl⟩ := List.exists_cons_of_ne_nil word.some
  have itself := word.each c (List.mem_cons_self ..)
  have lead : skip inside (c :: (w ++ d :: s)) = .char c (w ++ d :: s) :=
    skip_dark itself.some itself.dark _
  have field := plain_word word.each some stop s
  rw [List.cons_append] at field
  simp only [getField, List.cons_append, lead, itself.lpar, itself.rpar, itself.quote, if_false,
    Bool.false_eq_true, field, word.short, if_true]

theorem getField_blank (s : Str) (inside : Bool) (fieldType : FieldType) :
    getField ⟨blank :: s, inside, fieldType⟩ = getField ⟨s, inside, fieldType⟩ := by
  simp only [getField, skip_blank]

/-! ## Reading an argument -/

section

variable {outside : Int → Bool}

theorem spaceByte_iff {c : UInt8} :
    spaceByte c = true ↔ 9 ≤ c.toNat ∧ c.toNat ≤ 13 ∨ c.toNat = 32 := by
  have small := c.toNat_lt
  simp only [spaceByte, isspace]
  split
  next outer => omega
  next => simp only [decide_eq_true_eq]; omega

/-- What is put out without a backslash is not special to the reader. -/
theorem writechar_cases (outside : Int → Bool) (c : UInt8) :
    writechar outside c = [backslash, c] ∨
      writechar outside c = [c] ∧ spaceByte c = false ∧ c ≠ RPAR ∧ c ≠ backslash := by
  rw [writechar]
  split
  next => exact .inl rfl
  next ordinary =>
    simp only [Bool.or_eq_true, beq_iff_eq, not_or] at ordinary
    refine .inr ⟨rfl, ?_, ordinary.1.2, ordinary.2⟩
    cases white : spaceByte c with
    | false => rfl
    | true =>
      have range := spaceByte_iff.mp white
      have same : char c = c.toNat := BitVec.toInt_eq_toNat_of_lt (by
        show 2 * c.toNat < 2 ^ 8
        omega)
      refine absurd ?_ ordinary.1.1
      rw [same, isspace, if_neg (by omega)]
      exact decide_eq_true (by omega)

theorem plain_arg {a : Str} (whole : 0 ∉ a) (lpar : LPAR ∉ a) (comma : Inst.comma ∉ a) {d : UInt8}
    (some : d ≠ 0) (stop : delimiter true d = true) (s : Str) :
    plain true (writearg outside a ++ d :: s) = (a, d :: s) := by
  induction a with
  | nil =>
    rw [writearg, List.flatMap_nil, List.nil_append, plain.eq_def]
    simp [some, stop]
  | cons c a ih =>
    simp only [List.mem_cons, not_or] at whole lpar comma
    have rest := ih whole.2 lpar.2 comma.2
    have here : c ≠ 0 := Ne.symm whole.1
    rw [writearg, List.flatMap_cons, List.append_assoc, ← writearg]
    rcases writechar_cases outside c with escaped | ⟨ordinary, dark, rpar, noEscape⟩
    · have inner : delimiter true backslash = false := by decide
      rw [escaped, List.cons_append, List.singleton_append, plain.eq_def]
      simp [inner, here, rest, show backslash ≠ 0 by decide]
    · have inner : delimiter true c = false := by
        simp [delimiter, dark, Ne.symm lpar.1, rpar, Ne.symm comma.1]
      rw [ordinary, List.singleton_append, plain.eq_def]
      simp [here, inner, noEscape, rest]

/-- The field that begins with an argument that has no quote and no left
    parenthesis at the front. -/
theorem getField_front {c : UInt8} {a : Str} (here : c ≠ 0) (lpar : c ≠ LPAR)
    (quote : isQuote c = false) (s : Str) (fieldType : FieldType) :
    getField ⟨writearg outside (c :: a) ++ s, true, fieldType⟩ =
      let (p, s) := plain true (writearg outside (c :: a) ++ s)
      if p.length < 1024 then some (p, ⟨s, true, .other⟩) else none := by
  have text : writearg outside (c :: a) = writechar outside c ++ writearg outside a := by
    rw [writearg, List.flatMap_cons, ← writearg]
  rcases writechar_cases outside c with escaped | ⟨ordinary, dark, rpar, -⟩
  · have lead : skip true (backslash :: c :: (writearg outside a ++ s)) =
        .char backslash (c :: (writearg outside a ++ s)) :=
      skip_dark (by decide) (by decide) _
    rw [text, escaped]
    simp only [getField, List.cons_append, List.nil_append, lead]
    rfl
  · have lead : skip true (c :: (writearg outside a ++ s)) = .char c (writearg outside a ++ s) :=
      skip_dark here dark _
    rw [text, ordinary]
    simp only [getField, List.cons_append, List.nil_append, lead, lpar, rpar, quote, if_false,
      Bool.false_eq_true]

theorem writearg_lpar : writearg outside [LPAR] = [LPAR] := by
  have value : char LPAR = 40 := by decide
  have dark : isspace outside 40 = false := by simp [isspace]
  simp [writearg, writechar, value, dark, show LPAR ≠ RPAR by decide,
    show LPAR ≠ backslash by decide]

variable (outside) in
theorem getField_arg {a : Str} (arg : Arg a) (readable : Readable a) {d : UInt8} (some : d ≠ 0)
    (stop : delimiter true d = true) (s : Str) (fieldType : FieldType) :
    ∃ found, found ≠ .rpar ∧ found ≠ .eor ∧
      getField ⟨writearg outside a ++ d :: s, true, fieldType⟩ =
        Option.some (a, ⟨d :: s, true, found⟩) := by
  rcases readable.lpar with lpar | rfl
  · obtain ⟨c, a, rfl⟩ := List.exists_cons_of_ne_nil arg.some
    have here : c ≠ 0 := fun none => arg.whole (none ▸ List.mem_cons_self ..)
    have other : c ≠ LPAR := fun same => lpar (same ▸ List.mem_cons_self ..)
    refine ⟨.other, by decide, by decide, ?_⟩
    rw [getField_front here other (readable.quote c rfl), plain_arg arg.whole lpar readable.comma
      some stop]
    exact if_pos arg.short
  · refine ⟨.lpar, by decide, by decide, ?_⟩
    have lead : skip true (LPAR :: d :: s) = .char LPAR (d :: s) :=
      skip_dark (by decide) (by decide) _
    rw [writearg_lpar]
    simp only [getField, List.singleton_append, lead, if_true]

/-! ## Reading the attributes -/

theorem delimiter_blank {inside : Bool} : delimiter inside blank = true := by
  cases inside <;> decide

theorem delimiter_newline {inside : Bool} : delimiter inside newline = true := by
  cases inside <;> decide

/-- Read the next field and the arguments from it on. -/
def nextArgs (fuel : Nat) (i : Input) (at' : Attr) : Option (Attr × Input) := do
  let (r, i) ← getField i
  readArgs fuel i r at'

/-- Read the next field and the attributes from it on. -/
def nextAttrs (fuel : Nat) (i : Input) (attr : List Attr) : Option (List Attr × Input) := do
  let (r, i) ← getField i
  readAttrs fuel i r attr

theorem getField_rpar (s : Str) (fieldType : FieldType) :
    getField ⟨RPAR :: s, true, fieldType⟩ = some ([RPAR], ⟨s, false, .rpar⟩) := by
  have lead : skip true (RPAR :: s) = .char RPAR s := skip_dark (by decide) (by decide) _
  simp only [getField, lead, show RPAR ≠ LPAR by decide, if_false, if_true]

theorem getField_lpar (s : Str) (inside : Bool) (fieldType : FieldType) :
    getField ⟨LPAR :: s, inside, fieldType⟩ = some ([LPAR], ⟨s, true, .lpar⟩) := by
  have lead : skip inside (LPAR :: s) = .char LPAR s := skip_dark (by decide) (by decide) _
  simp only [getField, lead, if_true]

/-- An argument is read and taken, and the next one is tried. -/
theorem nextArgs_step {fuel : Nat} {i j : Input} {r : Str} (at' : Attr)
    (field : getField i = some (r, j)) (notRpar : j.fieldType ≠ .rpar)
    (notEor : j.fieldType ≠ .eor) :
    nextArgs (fuel + 1) i at' = nextArgs fuel j (idbAddarg at' r) := by
  simp only [nextArgs, field, Option.bind_eq_bind, Option.bind_some, readArgs, notRpar, notEor,
    or_self, if_false]
  cases getField j <;> rfl

theorem nextArgs_stop {fuel : Nat} {i j : Input} {r : Str} (at' : Attr)
    (field : getField i = some (r, j)) (stop : j.fieldType = .rpar ∨ j.fieldType = .eor) :
    nextArgs (fuel + 1) i at' = some (at', j) := by
  simp only [nextArgs, field, Option.bind_eq_bind, Option.bind_some, readArgs, stop, if_true]

variable (outside) in
theorem nextArgs_good {argv : List Str} (some : argv ≠ []) (args : ∀ a ∈ argv, Arg a)
    (readable : ∀ a ∈ argv, Readable a) (fuel : Nat) (enough : argv.length < fuel) (s : Str)
    (fieldType : FieldType) (at' : Attr) :
    nextArgs fuel ⟨writeargs outside argv ++ s, true, fieldType⟩ at' =
      Option.some ({ at' with argv := at'.argv ++ argv }, ⟨s, false, .rpar⟩) := by
  induction argv generalizing fuel fieldType at' with
  | nil => exact absurd rfl some
  | cons a argv ih =>
    obtain ⟨fuel, rfl⟩ := Nat.exists_eq_add_one_of_ne_zero (by omega : fuel ≠ 0)
    have arg := args a (List.mem_cons_self ..)
    have good := readable a (List.mem_cons_self ..)
    cases argv with
    | nil =>
      obtain ⟨fuel, rfl⟩ := Nat.exists_eq_add_one_of_ne_zero (n := fuel) (by simp at enough; omega)
      obtain ⟨found, notRpar, notEor, field⟩ :=
        getField_arg outside arg good (d := RPAR) (by decide) (by decide) s fieldType
      rw [writeargs, List.append_assoc, List.singleton_append,
        nextArgs_step at' field notRpar notEor,
        nextArgs_stop _ (getField_rpar s found) (.inl rfl)]
      rfl
    | cons b argv =>
      obtain ⟨found, notRpar, notEor, field⟩ :=
        getField_arg outside arg good (d := blank) (by decide) delimiter_blank
          (writeargs outside (b :: argv) ++ s) fieldType
      have rest := ih (List.cons_ne_nil b argv) (fun x listed => args x (List.mem_cons_of_mem _ listed))
        (fun x listed => readable x (List.mem_cons_of_mem _ listed))
        fuel (by simpa using enough) found (idbAddarg at' a)
      rw [writeargs, List.append_assoc, List.cons_append, nextArgs_step at' field notRpar notEor,
        nextArgs, getField_blank, ← nextArgs, rest]
      simp [idbAddarg]

/-- What stands behind a record is not white. -/
def Starts (rest : Str) : Prop := ∀ c ∈ rest.head?, spaceByte c = false

variable {q : Qsort}

/-- The arguments of an attribute, if there are any. -/
def argText (outside : Int → Bool) (q : Qsort) (argv : List Str) : Str :=
  if argv = [] then [] else LPAR :: writeargs outside (q.sort strcmp argv)

/-- The attributes to the end of the record and what is behind it. -/
def attrText (outside : Int → Bool) (q : Qsort) (l : List Attr) (rest : Str) : Str :=
  l.flatMap (writeattr outside q) ++ newline :: rest

theorem attrText_nil (rest : Str) : attrText outside q [] rest = newline :: rest := rfl

theorem attrText_cons (at' : Attr) (l : List Attr) (rest : Str) :
    attrText outside q (at' :: l) rest =
      blank :: (at'.atname ++ (argText outside q at'.argv ++ attrText outside q l rest)) := by
  rw [attrText, List.flatMap_cons, List.append_assoc, ← attrText, writeattr, argText]
  by_cases bare : at'.argv = [] <;> simp [bare]

variable (outside) in
theorem attrText_starts (l : List Attr) (rest : Str) :
    ∃ d s, attrText outside q l rest = d :: s ∧ d ≠ 0 ∧ delimiter false d = true := by
  cases l with
  | nil => exact ⟨newline, rest, rfl, by decide, delimiter_newline⟩
  | cons at' l => exact ⟨blank, _, attrText_cons .., by decide, delimiter_blank⟩

theorem sort_ne_nil {argv : List Str} (some : argv ≠ []) : q.sort strcmp argv ≠ [] := by
  intro none
  have count := (q.perm strcmp argv).length_eq
  rw [none, List.length_nil] at count
  exact some (List.length_eq_zero_iff.mp count.symm)

theorem argText_some {argv : List Str} (some : argv ≠ []) :
    argText outside q argv = LPAR :: writeargs outside (q.sort strcmp argv) := if_neg some

variable (outside) in
/-- What is behind the name of an attribute delimits it. -/
theorem argText_starts (argv : List Str) (l : List Attr) (rest : Str) :
    ∃ d s, argText outside q argv ++ attrText outside q l rest = d :: s ∧ d ≠ 0 ∧
      delimiter false d = true := by
  cases argv with
  | nil => exact attrText_starts outside l rest
  | cons a argv => exact ⟨LPAR, _, rfl, by decide, by decide⟩

theorem getField_end {rest : Str} (starts : Starts rest) (fieldType : FieldType) :
    getField ⟨newline :: rest, false, fieldType⟩ = some ([], ⟨rest, false, .eor⟩) := by
  have lead : skip false (newline :: rest) = .eor rest := by
    rw [skip.eq_def]
    cases rest with
    | nil => rfl
    | cons d rest => simp [show newline ≠ 0 by decide, starts d rfl]
  simp only [getField, lead]

theorem getField_attr {at' : Attr} (word : Word at'.atname) (l : List Attr) (rest : Str)
    (fieldType : FieldType) :
    getField ⟨attrText outside q (at' :: l) rest, false, fieldType⟩ =
      some (at'.atname, ⟨argText outside q at'.argv ++ attrText outside q l rest, false, .other⟩) := by
  obtain ⟨d, s, text, some, stop⟩ := argText_starts outside (q := q) at'.argv l rest
  rw [attrText_cons, getField_blank, text]
  exact getField_word word some stop s fieldType

variable (outside) in
/-- The field behind an attribute without arguments. -/
theorem getField_attrs {l : List Attr} (words : ∀ at' ∈ l, Word at'.atname) {rest : Str}
    (starts : Starts rest) (fieldType : FieldType) :
    ∃ r i, getField ⟨attrText outside q l rest, false, fieldType⟩ = some (r, i) ∧
      i.fieldType ≠ .lpar := by
  cases l with
  | nil => exact ⟨_, _, getField_end starts fieldType, fun same => (nomatch same)⟩
  | cons at' l =>
    exact ⟨_, _, getField_attr (words at' (List.mem_cons_self ..)) l rest fieldType,
      fun same => (nomatch same)⟩

theorem addattr_new {attr : List Attr} {name : Str} (new : name ∉ attr.map Attr.atname) :
    idbAddattr attr name = (attr ++ [⟨name, []⟩], attr.length) := by
  have missing : attr.findIdx? (fun at' => at'.atname == name) = none := by
    rw [List.findIdx?_eq_none_iff]
    intro at' listed
    have other : at'.atname ≠ name := fun same => new (same ▸ List.mem_map_of_mem listed)
    simpa using other
  rw [idbAddattr, missing]

/-- An attribute is read: without arguments, or with those read next. -/
theorem nextAttrs_bare {at' : Attr} (word : Word at'.atname) (bare : at'.argv = [])
    {l : List Attr} (words : ∀ at' ∈ l, Word at'.atname) {rest : Str} (starts : Starts rest)
    (attr : List Attr) (fuel : Nat) (fieldType : FieldType) :
    nextAttrs (fuel + 1) ⟨attrText outside q (at' :: l) rest, false, fieldType⟩ attr =
      nextAttrs fuel ⟨attrText outside q l rest, false, .other⟩
        (idbAddattr attr at'.atname).1 := by
  obtain ⟨r, i, field, notLpar⟩ := getField_attrs outside (q := q) words starts .other
  rw [nextAttrs, getField_attr word, bare]
  simp only [Option.bind_eq_bind, Option.bind_some, readAttrs, argText, List.nil_append, field,
    notLpar, if_true, if_false, nextAttrs, reduceCtorEq]

theorem readArgs_stop {fuel : Nat} {i j : Input} {r : Str} {at' found : Attr}
    (result : readArgs fuel i r at' = some (found, j)) :
    fuel ≠ 0 ∧ (j.fieldType = .rpar ∨ j.fieldType = .eor) := by
  induction fuel generalizing i r at' with
  | zero => cases result
  | succ fuel ih =>
    refine ⟨Nat.succ_ne_zero fuel, ?_⟩
    rw [readArgs] at result
    split at result
    next stop =>
      cases result
      exact stop
    next =>
      split at result
      next => cases result
      next => exact (ih result).2

theorem nextAttrs_args {at' : Attr} (word : Word at'.atname) (some : at'.argv ≠ [])
    (l : List Attr) (rest : Str) (attr : List Attr) (fuel : Nat) (fieldType : FieldType) :
    nextAttrs (fuel + 1) ⟨attrText outside q (at' :: l) rest, false, fieldType⟩ attr =
      (nextArgs fuel ⟨writeargs outside (q.sort strcmp at'.argv) ++ attrText outside q l rest, true,
        .lpar⟩ ⟨at'.atname, []⟩).bind fun (found, i) =>
          let (attr, k) := idbAddattr attr at'.atname
          if i.fieldType = .rpar then nextAttrs fuel i (attr.set k found)
          else Option.some (attr.set k found, i) := by
  rw [nextAttrs, getField_attr word, argText_some some, List.cons_append]
  simp only [Option.bind_eq_bind, Option.bind_some, readAttrs, getField_lpar, if_true, if_false,
    nextArgs, reduceCtorEq]
  cases getField ⟨writeargs outside (q.sort strcmp at'.argv) ++ attrText outside q l rest, true,
      .lpar⟩ with
  | none => rfl
  | some field =>
    simp only [Option.bind_some]
    cases result : readArgs fuel field.2 field.1 ⟨at'.atname, []⟩ with
    | none => rfl
    | some found =>
      obtain ⟨enough, stop⟩ := readArgs_stop result
      simp only [Option.bind_some]
      split
      next => rfl
      next notRpar =>
        obtain ⟨fuel, rfl⟩ := Nat.exists_eq_add_one_of_ne_zero enough
        simp only [readAttrs, stop.resolve_left notRpar, if_true]

/-- The attribute with its arguments sorted. -/
def Attr.tidy (q : Qsort) (at' : Attr) : Attr := { at' with argv := q.sort strcmp at'.argv }

/-- The attributes of a record that can be written. -/
@[mk_iff] structure Attr.Fits (at' : Attr) : Prop where
  name : Word at'.atname
  args : ∀ a ∈ at'.argv, Arg a

instance decidableAttr (at' : Attr) : Decidable at'.Fits := decidable_of_iff' _ (Attr.fits_iff at')

/-- How often the loops of the reader go around for some attributes. -/
def rounds (l : List Attr) : Nat := (l.map fun at' => at'.argv.length + 2).sum + 1

theorem tidy_bare {at' : Attr} (bare : at'.argv = []) : at'.tidy q = at' := by
  have count := (q.perm strcmp at'.argv).length_eq
  rw [bare, List.length_nil, List.length_eq_zero_iff] at count
  rw [Attr.tidy, bare, count, ← bare]

variable (outside) in
theorem nextAttrs_good {l : List Attr} (fits : ∀ at' ∈ l, at'.Fits)
    (readable : ∀ at' ∈ l, ∀ a ∈ at'.argv, Readable a) (attr : List Attr)
    (distinct : ((attr ++ l).map Attr.atname).Nodup) {rest : Str} (starts : Starts rest)
    (fuel : Nat) (enough : rounds l ≤ fuel) (fieldType : FieldType) :
    nextAttrs fuel ⟨attrText outside q l rest, false, fieldType⟩ attr =
      some (attr ++ l.map (Attr.tidy q), ⟨rest, false, .eor⟩) := by
  obtain ⟨fuel, rfl⟩ := Nat.exists_eq_add_one_of_ne_zero (n := fuel) (by
    rw [rounds] at enough
    omega)
  induction l generalizing attr fuel fieldType with
  | nil =>
    rw [attrText_nil, nextAttrs, getField_end starts]
    simp [readAttrs]
  | cons at' l ih =>
    have here := fits at' (List.mem_cons_self ..)
    have words : ∀ at' ∈ l, Word at'.atname :=
      fun at' listed => (fits at' (List.mem_cons_of_mem _ listed)).name
    have new : at'.atname ∉ attr.map Attr.atname := by
      rw [List.map_append, List.map_cons] at distinct
      have apart := (List.nodup_append.mp distinct).2.2
      exact fun listed => apart _ listed _ (List.mem_cons_self ..) rfl
    have names : (((attr ++ [at'.tidy q]) ++ l).map Attr.atname).Nodup := by
      simpa [Attr.tidy] using distinct
    simp only [rounds, List.map_cons, List.sum_cons] at enough
    obtain ⟨fuel, rfl⟩ := Nat.exists_eq_add_one_of_ne_zero (n := fuel) (by omega)
    have rest' := fun fieldType => ih (fun x listed => fits x (List.mem_cons_of_mem _ listed))
      (fun x listed => readable x (List.mem_cons_of_mem _ listed)) _ names fieldType fuel
      (by rw [rounds]; omega)
    by_cases bare : at'.argv = []
    · have same : (⟨at'.atname, []⟩ : Attr) = at' := by rw [← bare]
      rw [nextAttrs_bare here.name bare words starts, addattr_new new, same]
      rw [tidy_bare bare] at rest'
      rw [rest', List.map_cons, tidy_bare bare, List.append_assoc]
      rfl
    · have args := nextArgs_good outside (sort_ne_nil (q := q) bare)
        (fun a listed => here.args a ((q.perm strcmp at'.argv).mem_iff.mp listed))
        (fun a listed => readable at' (List.mem_cons_self ..) a
          ((q.perm strcmp at'.argv).mem_iff.mp listed)) (fuel + 1)
        (by rw [(q.perm strcmp at'.argv).length_eq]; omega) (attrText outside q l rest) .lpar
        ⟨at'.atname, []⟩
      have found : (attr ++ [(⟨at'.atname, []⟩ : Attr)]).set attr.length
          ⟨at'.atname, [] ++ q.sort strcmp at'.argv⟩ = attr ++ [at'.tidy q] := by simp [Attr.tidy]
      rw [nextAttrs_args here.name bare l rest, addattr_new new, args]
      simp only [Option.bind_some, if_true, found, rest']
      rw [List.map_cons, List.append_assoc]
      rfl

/-! ## Reading the other fields -/

theorem digit_value (n : Nat) : (digit n).toNat = 48 + n % 8 :=
  UInt8.toNat_ofNat_of_lt' (by simp [UInt8.size]; omega)

theorem octal_each (width n : Nat) : ∀ c ∈ octal width n, 48 ≤ c.toNat ∧ c.toNat < 56 := by
  induction width generalizing n with
  | zero => simp [octal]
  | succ width ih =>
    intro c listed
    rcases List.mem_append.mp listed with front | last
    · exact ih (n / 8) c front
    · rw [List.mem_singleton.mp last, digit_value]
      omega

theorem octal_length (width n : Nat) : (octal width n).length = width := by
  induction width generalizing n with
  | zero => rfl
  | succ width ih => simp [octal, ih]

theorem octal_fold {width n : Nat} (small : n < 8 ^ width) :
    (octal width n).foldl (fun (val : Int) c => 8 * val + ((c.toNat : Int) - 48)) 0 = n := by
  induction width generalizing n with
  | zero =>
    obtain rfl : n = 0 := by simpa using small
    rfl
  | succ width ih =>
    have front := ih (n := n / 8) (by rw [pow_succ] at small; omega)
    rw [octal, List.foldl_append, front]
    simp only [List.foldl_cons, List.foldl_nil, digit_value]
    omega

theorem itself_digit {c : UInt8} (low : 48 ≤ c.toNat) (high : c.toNat < 56) : Itself c := by
  have other : ∀ d : UInt8, d.toNat < 48 ∨ 56 ≤ d.toNat → c ≠ d := by
    rintro d outer rfl
    omega
  refine ⟨other 0 (by decide), ?_, other LPAR (by decide), other RPAR (by decide),
    other comma (by decide), other backslash (by decide), ?_⟩
  · cases white : spaceByte c with
    | false => rfl
    | true =>
      have range := spaceByte_iff.mp white
      omega
  · simp [isQuote, other 34 (by decide), other 39 (by decide)]

theorem strtol8_octal {width n : Nat} (some : width ≠ 0) (small : n < 8 ^ width) :
    strtol8 (octal width n) = n := by
  have each := octal_each width n
  have length := octal_length width n
  have fold := octal_fold small
  cases digits : octal width n with
  | nil =>
    rw [digits] at length
    exact absurd length.symm some
  | cons c s =>
    rw [digits] at each fold
    obtain ⟨low, high⟩ := each c (List.mem_cons_self ..)
    have dark := (itself_digit low high).dark
    have plus : c ≠ 43 := by
      rintro rfl
      exact absurd low (by decide)
    have minus : c ≠ 45 := by
      rintro rfl
      exact absurd low (by decide)
    have all : (c :: s).takeWhile (fun c => decide (48 ≤ c ∧ c < 56)) = c :: s := by
      refine List.takeWhile_eq_self_iff.mpr fun d listed => ?_
      exact decide_eq_true (each d listed)
    rw [strtol8, List.dropWhile_cons_of_neg (by simp [dark])]
    split
    next sign str signed =>
      split at signed
      next same => exact absurd (List.cons.inj same).1 minus
      next same => exact absurd (List.cons.inj same).1 plus
      next =>
        cases signed
        rw [all, Int.one_mul]
        exact fold

theorem strtol8_mode {mode : Int} (low : 0 ≤ mode) (high : mode ≤ 0o7777) :
    strtol8 (format04o mode) % 2 ^ 16 = mode := by
  have small : (mode % 2 ^ 16).toNat < 8 ^ 4 := by omega
  rw [format04o, if_pos small, strtol8_octal (by decide) small]
  omega

theorem word_mode {mode : Int} (low : 0 ≤ mode) (high : mode ≤ 0o7777) :
    Word (format04o mode) := by
  have small : (mode % 2 ^ 16).toNat < 8 ^ 4 := by omega
  rw [format04o, if_pos small]
  have length := octal_length 4 (mode % 2 ^ 16).toNat
  refine ⟨fun none => ?_, fun c listed => ?_, by omega⟩
  · rw [none] at length
    cases length
  · obtain ⟨low, high⟩ := octal_each 4 _ c listed
    exact itself_digit low high

theorem word_type (type : Int) : Word [typec type] := by
  refine ⟨List.cons_ne_nil _ _, fun c listed => ?_, by simp⟩
  rw [List.mem_singleton.mp listed, typec]
  split_ifs <;> decide

/-- A record that can be written. -/
@[mk_iff] structure Rec.Fits (rec : Rec) : Prop where
  mode : 0 ≤ rec.mode ∧ rec.mode ≤ 0o7777
  user : Word rec.user
  group : Word rec.group
  dstpath : Word rec.dstpath
  srcpath : Word rec.srcpath
  attr : ∀ at' ∈ rec.attr, at'.Fits
  distinct : (rec.attr.map Attr.atname).Nodup

instance decidableRec (rec : Rec) : Decidable rec.Fits := decidable_of_iff' _ (Rec.fits_iff rec)

/-- The record with its attributes and their arguments sorted. -/
def Rec.tidy (q : Qsort) (rec : Rec) : Rec :=
  { rec with attr := (q.sort cmpattr rec.attr).map (Attr.tidy q) }

theorem nextField {w : Str} (word : Word w) (s : Str) (fieldType : FieldType) :
    getField ⟨blank :: (w ++ blank :: s), false, fieldType⟩ =
      some (w, ⟨blank :: s, false, .other⟩) := by
  rw [getField_blank]
  exact getField_word word (by decide) delimiter_blank s fieldType

theorem idbWrite_text (outside : Int → Bool) (q : Qsort) (rec : Rec) (rest : Str) :
    idbWrite outside q rec ++ rest = [typec rec.type] ++ blank :: (format04o rec.mode ++
      blank :: (rec.user ++ blank :: (rec.group ++ blank :: (rec.dstpath ++ blank :: (rec.srcpath ++
        attrText outside q (q.sort cmpattr rec.attr) rest))))) := by
  simp [idbWrite, attrText]

/-- All but the attributes are read as they were written. -/
theorem idbRead_attrs {rec : Rec} (fits : rec.Fits) (fuel : Nat) (rest : Str) :
    idbRead fuel (idbWrite outside q rec ++ rest) =
      (nextAttrs fuel ⟨attrText outside q (q.sort cmpattr rec.attr) rest, false, .other⟩ []).map
        fun (attr, i) => (some { rec with type := typei (typec rec.type), attr := attr }, i.rest) := by
  have word := word_type rec.type
  have known := (word.each _ (List.mem_singleton_self _)).some
  have mode := word_mode fits.mode.1 fits.mode.2
  obtain ⟨d, s, text, some, stop⟩ :=
    attrText_starts outside (q := q) (q.sort cmpattr rec.attr) rest
  have type : ∀ s, getField ⟨[typec rec.type] ++ blank :: s, false, .other⟩ =
      Option.some ([typec rec.type], ⟨blank :: s, false, .other⟩) := fun s =>
    getField_word word (by decide) delimiter_blank s .other
  have src := getField_word fits.srcpath some stop s .other
  rw [idbWrite_text, text]
  simp only [idbRead, List.singleton_append, known, if_false, Option.bind_eq_bind]
  simp only [List.singleton_append] at type
  simp only [type, Option.bind_some, nextField mode, nextField fits.user, nextField fits.group,
    nextField fits.dstpath, getField_blank, src, List.headD_cons,
    strtol8_mode fits.mode.1 fits.mode.2, nextAttrs, Option.bind_eq_bind]
  cases getField ⟨d :: s, false, .other⟩ with
  | none => rfl
  | some field =>
    simp only [Option.bind_some]
    cases readAttrs fuel field.2 field.1 [] <;> rfl

/-- A type that `idb_read` makes. -/
def Rec.Typed (rec : Rec) : Prop := typei (typec rec.type) = rec.type

instance decidableTyped (rec : Rec) : Decidable rec.Typed :=
  inferInstanceAs (Decidable (typei (typec rec.type) = rec.type))

/-- A record with attributes and arguments in order. -/
@[mk_iff] structure Rec.Sorted (rec : Rec) : Prop where
  attr : rec.attr.Pairwise fun at1 at2 => cmpattr at1 at2 ≤ 0
  argv : ∀ at' ∈ rec.attr, at'.argv.Pairwise fun a b => strcmp a b ≤ 0

theorem Word.whole {w : Str} (word : Word w) : 0 ∉ w :=
  fun listed => (word.each 0 listed).some rfl

theorem rec_sorted {rec : Rec} (fits : rec.Fits) : (rec.tidy q).Sorted := by
  have lawful : Lawful (fun at' : Attr => 0 ∉ at'.atname) cmpattr :=
    lawful_strcmp.on Attr.atname
  constructor
  · have sorted := q.sorted cmpattr rec.attr
      (lawful.mono fun at' listed => (fits.attr at' listed).name.whole)
    exact List.pairwise_map.mpr sorted
  · intro at' listed
    obtain ⟨at', among, rfl⟩ := List.mem_map.mp listed
    have each := (fits.attr at' ((q.perm cmpattr rec.attr).mem_iff.mp among)).args
    exact q.sorted strcmp at'.argv (lawful_strcmp.mono fun a listed => (each a listed).whole)

theorem idbRead_good {rec : Rec} (fits : rec.Fits) (typed : rec.Typed)
    (readable : ∀ at' ∈ rec.attr, ∀ a ∈ at'.argv, Readable a) {rest : Str} (starts : Starts rest)
    {fuel : Nat} (enough : rounds rec.attr ≤ fuel) :
    idbRead fuel (idbWrite outside q rec ++ rest) = some (some (rec.tidy q), rest) := by
  have perm := q.perm cmpattr rec.attr
  have same : rounds (q.sort cmpattr rec.attr) = rounds rec.attr := by
    rw [rounds, (perm.map _).sum_nat, rounds]
  have attrs := nextAttrs_good outside (q := q) (l := q.sort cmpattr rec.attr)
    (fun at' listed => fits.attr at' (perm.mem_iff.mp listed))
    (fun at' listed => readable at' (perm.mem_iff.mp listed)) []
    ((perm.map Attr.atname).nodup_iff.mpr fits.distinct) starts fuel (by omega) .other
  rw [idbRead_attrs fits, attrs, List.nil_append, Option.map_some, typed]
  rfl

end

end Irix.Inst
