import Irix.Inst.Byteio
import Mathlib.Data.List.Induction

/-! # Breaking up a path

`breakpath` takes a path apart and cancels what it can. What it returns is compared with the
path by walking both from a directory of any tree.
-/

namespace Irix.Inst

/-- The size of a general buffer. -/
abbrev Strsize : Nat := 1024

abbrev separator : UInt8 := 47

/-- `"."` -/
def dot : Str := [46]

/-- `".."` -/
def dotdot : Str := [46, 46]

/-- The first component of a path, and what follows it. -/
def nextWord (path : Str) : Str × Str :=
  let path := path.dropWhile fun c => decide (c = separator)
  (path.takeWhile fun c => decide (c ≠ separator), path.dropWhile fun c => decide (c ≠ separator))

theorem nextWord_less {path : Str} (more : (nextWord path).1 ≠ []) :
    (nextWord path).2.length < path.length := by
  unfold nextWord at more ⊢
  simp only at more ⊢
  generalize eq : (path.dropWhile fun c => decide (c = separator)) = rest at more ⊢
  have less : rest.length ≤ path.length := by
    rw [← eq]
    exact List.length_dropWhile_le ..
  have split := congrArg List.length (List.takeWhile_append_dropWhile (p := fun c => decide (c ≠ separator)) (l := rest))
  have some := List.length_pos_iff.mpr more
  rw [List.length_append] at split
  omega

/-- What one component does to those that are kept. -/
def keep (argv : List Str) (word : Str) : List Str :=
  if word = dotdot ∧ argv ≠ [] then argv.dropLast
  else if word ≠ dot then argv ++ [word]
  else argv

/-- `while (*path != '\0')`. A component that is as long as the buffer runs over its end. -/
def breakLoop (path : Str) (argv : List Str) : Option (List Str) :=
  if _more : (nextWord path).1 = [] then some argv
  else if Strsize ≤ (nextWord path).1.length then none
  else breakLoop (nextWord path).2 (keep argv (nextWord path).1)
termination_by path.length
decreasing_by exact nextWord_less _more

def breakpath (path : Str) : Option (List Str) :=
  (breakLoop path []).map fun argv => if argv = [] then [dot] else argv

/-! ## Walking a tree -/

/-- A tree of directories and files. -/
structure Tree (D : Type) where
  isDir : D → Bool
  child : D → Str → Option D
  parent : D → D
  parent_child : ∀ d name e, child d name = some e → parent e = d

/-- Where one component leads. -/
def Tree.look {D : Type} (tree : Tree D) (d : D) (word : Str) : Option D :=
  if tree.isDir d then
    if word = dot then some d else if word = dotdot then some (tree.parent d) else tree.child d word
  else none

def Tree.walk {D : Type} (tree : Tree D) : D → List Str → Option D
  | d, [] => some d
  | d, word :: words => (tree.look d word).bind fun e => tree.walk e words

/-- The components of a path. -/
def components (path : Str) : List Str :=
  if _more : (nextWord path).1 = [] then []
  else (nextWord path).1 :: components (nextWord path).2
termination_by path.length
decreasing_by exact nextWord_less _more

/-- No `.` unless it is alone, and no `..` behind an ordinary name. -/
def Clean (argv : List Str) : Prop :=
  (dot ∈ argv → argv = [dot]) ∧
    ∀ front word back, argv = front ++ word :: back → word ≠ dot → word ≠ dotdot → dotdot ∉ back

/-- The components lead where the path does. -/
def SameWay (path : Str) (argv : List Str) : Prop :=
  ∀ (D : Type) (tree : Tree D) (d e : D), tree.isDir d = true → tree.walk d (components path) = some e →
    tree.walk d argv = some e

/-- The number of names that are not cancelled, and of `..` that have none to cancel. -/
def level : Nat × Nat → Str → Nat × Nat
  | (depth, ups), word =>
    if word = dotdot then
      match depth with
      | 0 => (0, ups + 1)
      | depth + 1 => (depth, ups)
    else if word = dot then (depth, ups)
    else (depth + 1, ups)

/-- How far up a path leads. -/
def ups (words : List Str) : Nat := (words.foldl level (0, 0)).2

/-! ## The loop over the components -/

theorem breakLoop_eq (path : Str) (argv : List Str) :
    breakLoop path argv =
      if ∀ w ∈ components path, w.length < Strsize then some ((components path).foldl keep argv)
      else none := by
  fun_induction breakLoop path argv with
  | case1 path argv done =>
      unfold components
      simp [done]
  | case2 path argv more long =>
      have first : (nextWord path).1 ∈ components path := by
        unfold components
        simp [more]
      have not : ¬∀ w ∈ components path, w.length < Strsize := fun all =>
        absurd (all _ first) (Nat.not_lt.mpr long)
      rw [if_neg not]
  | case3 path argv more short ih =>
      rw [ih]
      conv_rhs => unfold components
      simp only [more, dite_false, List.forall_mem_cons, Nat.lt_of_not_le short, true_and,
        List.foldl_cons]

theorem breakpath_eq (path : Str) :
    breakpath path =
      if ∀ w ∈ components path, w.length < Strsize then
        some (if (components path).foldl keep [] = [] then [dot] else (components path).foldl keep [])
      else none := by
  rw [breakpath, breakLoop_eq]
  split <;> rfl

/-! ## What is kept -/

def Ordinary (word : Str) : Prop := word ≠ dot ∧ word ≠ dotdot

/-- So many of the components `..` are left of those that had nothing to cancel. -/
def odd (u : Nat) : List Str := if u % 2 = 1 then [dotdot] else []

/-- What is kept of some components, and what they come to. -/
structure Kept (words : List Str) (u : Nat) (names : List Str) : Prop where
  argv : words.foldl keep [] = odd u ++ names
  level : words.foldl level (0, 0) = (names.length, u)
  ordinary : ∀ n ∈ names, Ordinary n
  way : ∀ (D : Type) (tree : Tree D) (d e : D), tree.walk d words = some e →
    tree.walk d (List.replicate u dotdot ++ names) = some e

section

variable {D : Type} (tree : Tree D) {words names : List Str} {word : Str} {u : Nat} {d e : D}

theorem Tree.look_dot : tree.look d dot = some e ↔ tree.isDir d = true ∧ d = e := by
  by_cases dir : tree.isDir d = true <;> simp [Tree.look, dir]

theorem Tree.look_dotdot : tree.look d dotdot = some e ↔ tree.isDir d = true ∧ tree.parent d = e := by
  by_cases dir : tree.isDir d = true <;> simp [Tree.look, dir, dot, dotdot]

theorem Tree.look_ordinary (ordinary : Ordinary word) :
    tree.look d word = some e ↔ tree.isDir d = true ∧ tree.child d word = some e := by
  by_cases dir : tree.isDir d = true <;> simp [Tree.look, dir, ordinary.1, ordinary.2]

theorem Tree.walk_append (front back : List Str) :
    tree.walk d (front ++ back) = (tree.walk d front).bind fun e => tree.walk e back := by
  induction front generalizing d with
  | nil => rfl
  | cons word front ih =>
      simp only [List.cons_append, Tree.walk, Option.bind_assoc]
      congr 1
      funext e
      exact ih

theorem Tree.walk_last (front : List Str) (word : Str) :
    tree.walk d (front ++ [word]) = (tree.walk d front).bind fun e => tree.look e word := by
  rw [Tree.walk_append]
  congr 1
  funext e
  simp [Tree.walk]

theorem Kept.stay (kept : Kept words u names) : Kept (words ++ [dot]) u names where
  argv := by simp [kept.argv, keep, dot, dotdot]
  level := by simp [kept.level, Inst.level, dot, dotdot]
  ordinary := kept.ordinary
  way D tree d e walks := by
    rw [Tree.walk_last, Option.bind_eq_some_iff] at walks
    obtain ⟨e', walks, look⟩ := walks
    rw [tree.look_dot] at look
    rw [← look.2]
    exact kept.way D tree d e' walks

theorem Kept.ordinary_word (kept : Kept words u names) (ordinary : Ordinary word) :
    Kept (words ++ [word]) u (names ++ [word]) where
  argv := by simp [kept.argv, keep, ordinary.1, ordinary.2]
  level := by simp [kept.level, Inst.level, ordinary.1, ordinary.2]
  ordinary := by
    simp only [List.mem_append, List.mem_singleton]
    rintro n (old | rfl)
    · exact kept.ordinary n old
    · exact ordinary
  way D tree d e walks := by
    rw [Tree.walk_last, Option.bind_eq_some_iff] at walks
    obtain ⟨e', walks, look⟩ := walks
    rw [← List.append_assoc, Tree.walk_last, kept.way D tree d e' walks]
    exact look

/-- A `..` cancels the name before it. -/
theorem Kept.cancel (kept : Kept words u (names ++ [word])) : Kept (words ++ [dotdot]) u names where
  argv := by
    have some : odd u ++ (names ++ [word]) ≠ [] := by simp
    simp [kept.argv, keep, ← List.append_assoc]
  level := by simp [kept.level, Inst.level]
  ordinary n mem := kept.ordinary n (List.mem_append_left _ mem)
  way D tree d e walks := by
    rw [Tree.walk_last, Option.bind_eq_some_iff] at walks
    obtain ⟨e', walks, look⟩ := walks
    have before := kept.way D tree d e' walks
    rw [← List.append_assoc, Tree.walk_last, Option.bind_eq_some_iff] at before
    obtain ⟨e'', walks', child⟩ := before
    rw [tree.look_ordinary (kept.ordinary word (by simp))] at child
    rw [tree.look_dotdot] at look
    rw [walks', ← look.2, tree.parent_child _ _ _ child.2]

/-- With no name before it a `..` cancels the last `..`, and goes up in fact. -/
theorem Kept.up (kept : Kept words u []) : Kept (words ++ [dotdot]) (u + 1) [] where
  argv := by
    simp only [List.foldl_append, kept.argv, List.append_nil, List.foldl_cons, List.foldl_nil, odd]
    rcases Nat.mod_two_eq_zero_or_one u with even | odd
    · have next : (u + 1) % 2 = 1 := by omega
      simp [even, next, keep, dotdot, dot]
    · have next : (u + 1) % 2 = 0 := by omega
      simp [odd, next, keep]
  level := by simp [kept.level, Inst.level]
  ordinary := kept.ordinary
  way D tree d e walks := by
    rw [Tree.walk_last, Option.bind_eq_some_iff] at walks
    obtain ⟨e', walks, look⟩ := walks
    have before := kept.way D tree d e' walks
    rw [List.append_nil] at before ⊢
    rw [List.replicate_succ', Tree.walk_last, before]
    exact look

end

theorem kept_all (words : List Str) : ∃ u names, Kept words u names := by
  induction words using List.reverseRecOn with
  | nil => exact ⟨0, [], rfl, rfl, by simp, fun D tree d e walks => walks⟩
  | append_singleton words word ih =>
      obtain ⟨u, names, kept⟩ := ih
      by_cases isDot : word = dot
      · subst isDot
        exact ⟨u, names, kept.stay⟩
      · by_cases isDotdot : word = dotdot
        · subst isDotdot
          rcases List.eq_nil_or_concat names with rfl | ⟨names, last, rfl⟩
          · exact ⟨u + 1, [], kept.up⟩
          · rw [List.concat_eq_append] at kept
            exact ⟨u, names, kept.cancel⟩
        · exact ⟨u, names ++ [word], kept.ordinary_word ⟨isDot, isDotdot⟩⟩

theorem Kept.clean {words names : List Str} {u : Nat} (kept : Kept words u names) :
    Clean (if odd u ++ names = [] then [dot] else odd u ++ names) := by
  split
  · refine ⟨fun _ => rfl, fun front word back eq notDot _ => ?_⟩
    have mem : word ∈ [dot] := by rw [eq]; simp
    exact absurd (List.mem_singleton.mp mem) notDot
  · have noDot : dot ∉ odd u ++ names := by
      rw [List.mem_append]
      rintro (mem | mem)
      · unfold odd at mem
        split at mem
        · exact absurd (List.mem_singleton.mp mem) (by decide)
        · cases mem
      · exact (kept.ordinary dot mem).1 rfl
    have noDotdot : dotdot ∉ names := fun mem => (kept.ordinary dotdot mem).2 rfl
    refine ⟨fun mem => absurd mem noDot, fun front word back eq _ notDotdot mem => ?_⟩
    unfold odd at eq
    split at eq
    · cases front with
      | nil =>
          simp only [List.nil_append, List.cons_append, List.cons.injEq] at eq
          exact notDotdot eq.1.symm
      | cons first front =>
          simp only [List.cons_append, List.nil_append, List.cons.injEq] at eq
          apply noDotdot
          rw [eq.2]
          simp [mem]
    · apply noDotdot
      rw [List.nil_append] at eq
      rw [eq]
      simp [mem]

/-- The tree in which every name is one of a directory. -/
def everything : Tree (List Str) where
  isDir _ := true
  child d name := some (name :: d)
  parent d := d.tail
  parent_child d name e child := by
    cases child
    rfl

theorem everything_look (d : List Str) (word : Str) : ∃ e, everything.look d word = some e := by
  simp only [Tree.look, everything, if_true]
  split
  · exact ⟨_, rfl⟩
  · split <;> exact ⟨_, rfl⟩

theorem everything_walk (d : List Str) (words : List Str) : ∃ e, everything.walk d words = some e := by
  induction words generalizing d with
  | nil => exact ⟨d, rfl⟩
  | cons word words ih =>
      obtain ⟨e, look⟩ := everything_look d word
      obtain ⟨e', walks⟩ := ih e
      exact ⟨e', by simp [Tree.walk, look, walks]⟩

theorem everything_names (d : List Str) {names : List Str} (ordinary : ∀ n ∈ names, Ordinary n) :
    everything.walk d names = some (names.reverse ++ d) := by
  induction names generalizing d with
  | nil => rfl
  | cons name names ih =>
      have look : everything.look d name = some (name :: d) :=
        (everything.look_ordinary (ordinary name (by simp))).mpr ⟨rfl, rfl⟩
      rw [Tree.walk, look, Option.bind_some, ih _ fun n mem => ordinary n (by simp [mem])]
      simp

theorem everything_ups (d : List Str) (u : Nat) :
    everything.walk d (List.replicate u dotdot) = some (d.drop u) := by
  induction u generalizing d with
  | zero => rfl
  | succ u ih =>
      have look : everything.look d dotdot = some d.tail := everything.look_dotdot.mpr ⟨rfl, rfl⟩
      rw [List.replicate_succ, Tree.walk, look, Option.bind_some, ih, List.drop_tail]

/-- The components lead where the path does unless it leads up twice. -/
theorem Kept.sameWay_iff {words names : List Str} {u : Nat} (kept : Kept words u names) :
    (∀ (D : Type) (tree : Tree D) (d e : D), tree.isDir d = true → tree.walk d words = some e →
      tree.walk d (if odd u ++ names = [] then [dot] else odd u ++ names) = some e) ↔ u ≤ 1 := by
  constructor
  · intro same
    by_contra twice
    have odd_eq : odd u = List.replicate (u % 2) dotdot := by
      unfold odd
      rcases Nat.mod_two_eq_zero_or_one u with even | odd
      · simp [even]
      · simp [odd]
    obtain ⟨e, walks⟩ := everything_walk (List.replicate u dot) words
    have way := kept.way _ everything _ e walks
    have given := same _ everything _ e rfl walks
    rw [Tree.walk_append, everything_ups, Option.bind_some,
      everything_names _ kept.ordinary, Option.some.injEq] at way
    have short := congrArg List.length way
    simp only [List.length_append, List.length_reverse, List.length_drop, List.length_replicate] at short
    split at given
    · next none =>
        simp only [List.append_eq_nil_iff] at none
        have stays : everything.walk (List.replicate u dot) [dot] = some (List.replicate u dot) := by
          simp [Tree.walk, Tree.look, everything]
        rw [stays, Option.some.injEq] at given
        have long := congrArg List.length given
        rw [none.2] at short
        simp only [List.length_replicate, List.length_nil] at long short
        omega
    · rw [Tree.walk_append, odd_eq, everything_ups, Option.bind_some,
        everything_names _ kept.ordinary, Option.some.injEq] at given
      have long := congrArg List.length given
      simp only [List.length_append, List.length_reverse, List.length_drop, List.length_replicate] at long
      omega
  · intro once D tree d e dir walks
    have odd_eq : odd u = List.replicate u dotdot := by
      rcases Nat.le_one_iff_eq_zero_or_eq_one.mp once with rfl | rfl <;> rfl
    have way := kept.way D tree d e walks
    rw [← odd_eq] at way
    split
    · next none =>
        rw [none] at way
        rw [← way]
        simp [Tree.walk, Tree.look, dir]
    · exact way

/-- `breakpath` returns the normal form exactly of the paths whose components fit into the
    buffer and that lead up at most once. -/
theorem breakpath_normal_iff (path : Str) :
    (∃ argv, breakpath path = some argv ∧ Clean argv ∧ SameWay path argv) ↔
      (∀ w ∈ components path, w.length < Strsize) ∧ ups (components path) ≤ 1 := by
  obtain ⟨u, names, kept⟩ := kept_all (components path)
  have same := kept.sameWay_iff
  have clean := kept.clean
  rw [← kept.argv] at same clean
  rw [breakpath_eq, show ups (components path) = u from congrArg Prod.snd kept.level, ← same]
  constructor
  · rintro ⟨argv, done, -, same⟩
    split at done
    · next fits =>
        cases done
        exact ⟨fits, same⟩
    · cases done
  · rintro ⟨fits, same⟩
    rw [if_pos fits]
    exact ⟨_, rfl, clean, same⟩

/-- Of `../..` nothing is left. -/
theorem breakpath_twice :
    breakpath [46, 46, 47, 46, 46] = some [dot] ∧ ¬SameWay [46, 46, 47, 46, 46] [dot] := by
  have words : components [46, 46, 47, 46, 46] = [dotdot, dotdot] := by
    have first : nextWord [46, 46, 47, 46, 46] = (dotdot, [47, 46, 46]) := by decide
    have second : nextWord [47, 46, 46] = (dotdot, []) := by decide
    have last : nextWord [] = ([], []) := rfl
    have some : dotdot ≠ [] := by decide
    rw [components, dif_neg (by rw [first]; exact some), first, components,
      dif_neg (by rw [second]; exact some), second, components, dif_pos (by rw [last])]
  refine ⟨?_, fun same => ?_⟩
  · rw [breakpath_eq, words]
    decide
  · have up := same _ everything [dot, dot] [] rfl (by rw [words]; rfl)
    exact absurd up (by decide)

end Irix.Inst
