import Irix.Inst.Strings

/-! # Records of an installation data base

A record is a line of text: the type, the mode, the owner, the paths and the
attributes of a file.  `idb_write` puts it out and `idb_read` takes it from a
stream, in which a null byte stands for the end.
-/

namespace Irix.Inst

open Lib Lib.Compare

structure Attr where
  atname : Str
  argv : List Str
  deriving DecidableEq, Repr

structure Rec where
  type : Int
  mode : Int
  user : Str
  group : Str
  dstpath : Str
  srcpath : Str
  attr : List Attr
  deriving DecidableEq, Repr

/-! ## Characters -/

abbrev LPAR : UInt8 := 40

abbrev RPAR : UInt8 := 41

abbrev comma : UInt8 := 44

abbrev backslash : UInt8 := 92

abbrev newline : UInt8 := 10

abbrev blank : UInt8 := 32

/-- The table of `isspace` has entries for -1 and for the bytes.  What is found for
    other numbers is `outside`. -/
def isspace (outside : Int → Bool) (c : Int) : Bool :=
  if c < -1 ∨ 255 < c then outside c else decide (9 ≤ c ∧ c ≤ 13 ∨ c = 32)

/-- `isspace` of what `getc` returns, which is in the table. -/
def spaceByte (c : UInt8) : Bool := isspace (fun _ => false) c.toNat

def isQuote (c : UInt8) : Bool := decide (c = 34 ∨ c = 39)

/-- `'0' + n % 8` -/
def digit (n : Nat) : UInt8 := UInt8.ofNat (48 + n % 8)

/-! ## File types -/

abbrev S_IFIFO : Int := 0o010000

abbrev S_IFCHR : Int := 0o020000

abbrev S_IFDIR : Int := 0o040000

abbrev S_IFBLK : Int := 0o060000

abbrev S_IFREG : Int := 0o100000

abbrev S_IFLNK : Int := 0o120000

/-- The character for a file type. -/
def typec (i : Int) : UInt8 :=
  if i = S_IFBLK then 98
  else if i = S_IFCHR then 99
  else if i = S_IFDIR then 100
  else if i = S_IFREG then 102
  else if i = S_IFLNK then 108
  else if i = S_IFIFO then 112
  else 102

/-- The file type of a character. -/
def typei (c : UInt8) : Int :=
  if c = 98 then S_IFBLK
  else if c = 99 then S_IFCHR
  else if c = 100 then S_IFDIR
  else if c = 102 then S_IFREG
  else if c = 108 then S_IFLNK
  else if c = 112 then S_IFIFO
  else S_IFREG

/-! ## Writing -/

/-- The last `width` octal digits. -/
def octal : (width : Nat) → Nat → Str
  | 0, _ => []
  | width + 1, n => octal width (n / 8) ++ [digit n]

/-- `%04o` of an `unsigned short` -/
def format04o (mode : Int) : Str :=
  let n := (mode % 2 ^ 16).toNat
  octal (if n < 8 ^ 4 then 4 else if n < 8 ^ 5 then 5 else 6) n

def cmpattr (a1 a2 : Attr) : Int := strcmp a1.atname a2.atname

section

variable (outside : Int → Bool) (q : Qsort)

/-- One character of an argument. -/
def writechar (p : UInt8) : Str :=
  if isspace outside (char p) || p == RPAR || p == backslash then [backslash, p] else [p]

def writearg (p : Str) : Str := p.flatMap (writechar outside)

/-- The arguments and what stands behind each. -/
def writeargs : List Str → Str
  | [] => []
  | [p] => writearg outside p ++ [RPAR]
  | p :: p' :: argv => writearg outside p ++ blank :: writeargs (p' :: argv)

def writeattr (at' : Attr) : Str :=
  if at'.argv = [] then blank :: at'.atname
  else blank :: at'.atname ++ LPAR :: writeargs outside (q.sort strcmp at'.argv)

def idbWrite (rec : Rec) : Str :=
  typec rec.type :: blank :: format04o rec.mode ++ blank :: rec.user ++ blank :: rec.group ++
    blank :: rec.dstpath ++ blank :: rec.srcpath ++
      (q.sort cmpattr rec.attr).flatMap (writeattr outside q) ++ [newline]

end

/-! ## Fields -/

inductive FieldType where
  | other
  | lpar
  | rpar
  | eor
  deriving DecidableEq, Repr

/-- The stream, and what `get_field` leaves behind. -/
structure Input where
  rest : Str
  inside : Bool
  fieldType : FieldType
  deriving DecidableEq, Repr

/-- What the first loop of `get_field` ends with. -/
inductive Lead where
  | eor (rest : Str)
  | char (c : UInt8) (rest : Str)

/-- Over white space, up to the end of the record. -/
def skip (inside : Bool) : Str → Lead
  | [] => .eor []
  | c :: s =>
    if c = 0 then .char c s
    else if !inside && c == newline then
      -- the character behind the newline is looked at, and may go on with the record
      match s with
      | [] => .eor []
      | d :: _ => if spaceByte d then skip inside s else .eor s
    else if inside && c == comma then .char c s
    else if spaceByte c then skip inside s
    else .char c s

/-- Where a field without quotes ends. -/
def delimiter (inside : Bool) (c : UInt8) : Bool :=
  spaceByte c || c == LPAR || c == RPAR || (inside && c == comma)

/-- A field without quotes and what is behind it.  A delimiter is put back. -/
def plain (inside : Bool) : Str → Str × Str
  | [] => ([], [])
  | c :: s =>
    if c = 0 then ([], s)
    else if delimiter inside c then ([], c :: s)
    else if c = backslash then
      match s with
      | [] => ([], [])
      | d :: s => if d = 0 then ([], s) else ((plain inside s).map (d :: ·) id)
    else (plain inside s).map (c :: ·) id

/-- A field in quotes and what is behind it. -/
def quoted (quote : UInt8) : Str → Str × Str
  | [] => ([], [])
  | c :: s =>
    if c = 0 then ([], s)
    else if c = quote then ([], s)
    else if c = backslash then
      match s with
      | [] => ([], [])
      | d :: s => if d = 0 then ([], s) else ((quoted quote s).map (d :: ·) id)
    else (quoted quote s).map (c :: ·) id

/-- The next field, unless it runs over the buffer of 1024 bytes. -/
def getField (i : Input) : Option (Str × Input) :=
  match skip i.inside i.rest with
  | .eor s => some ([], ⟨s, i.inside, .eor⟩)
  | .char c s =>
    if c = LPAR then some ([LPAR], ⟨s, true, .lpar⟩)
    else if c = RPAR then some ([RPAR], ⟨s, false, .rpar⟩)
    else
      let (p, s) := if isQuote c then quoted c s else plain i.inside (c :: s)
      if p.length < 1024 then some (p, ⟨s, i.inside, .other⟩) else none

/-! ## Records -/

/-- The octal number a string begins with. -/
def strtol8 (str : Str) : Int :=
  let str := str.dropWhile spaceByte
  let (sign, str) := match str with
    | 45 :: str => ((-1 : Int), str)
    | 43 :: str => (1, str)
    | str => (1, str)
  let digits := str.takeWhile fun c => decide (48 ≤ c ∧ c < 56)
  sign * digits.foldl (fun (val : Int) c => 8 * val + ((c.toNat : Int) - 48)) 0

def idbAddarg (at' : Attr) (s : Str) : Attr := { at' with argv := at'.argv ++ [s] }

/-- The attribute of that name, which is a new one or loses its arguments, and
    its place. -/
def idbAddattr (attr : List Attr) (name : Str) : List Attr × Nat :=
  match attr.findIdx? fun at' => at'.atname == name with
  | some k => (attr.set k ⟨name, []⟩, k)
  | none => (attr ++ [⟨name, []⟩], attr.length)

/-- The loop over the arguments, at most `fuel` times around. -/
def readArgs : (fuel : Nat) → (i : Input) → (r : Str) → Attr → Option (Attr × Input)
  | 0, _, _, _ => none
  | fuel + 1, i, r, at' =>
    if i.fieldType = .rpar ∨ i.fieldType = .eor then some (at', i)
    else
      match getField i with
      | none => none
      | some (r', i) => readArgs fuel i r' (idbAddarg at' r)

/-- The loop over the attributes. -/
def readAttrs : (fuel : Nat) → (i : Input) → (r : Str) → List Attr → Option (List Attr × Input)
  | 0, _, _, _ => none
  | fuel + 1, i, name, attr =>
    if i.fieldType = .eor then some (attr, i)
    else do
      let (attr, k) := idbAddattr attr name
      let (r, i) ← getField i
      if i.fieldType = .lpar then do
        let (r, i) ← getField i
        let (at', i) ← readArgs fuel i r ⟨name, []⟩
        let (r, i) ← if i.fieldType = .rpar then getField i else some (r, i)
        readAttrs fuel i r (attr.set k at')
      else readAttrs fuel i r attr

/-- A record and the stream behind it, no record at the end of the stream.  There
    is no result when a field runs over the buffer or `fuel` is not enough. -/
def idbRead (fuel : Nat) (s : Str) : Option (Option Rec × Str) :=
  match s with
  | [] => some (none, s)
  | i :: _ =>
    if i = 0 then some (none, s)
    else do
      let (type, i) ← getField ⟨s, false, .other⟩
      let (mode, i) ← getField i
      let (user, i) ← getField i
      let (group, i) ← getField i
      let (dstpath, i) ← getField i
      let (srcpath, i) ← getField i
      let (r, i) ← getField i
      let (attr, i) ← readAttrs fuel i r []
      some (some ⟨typei (type.headD 0), strtol8 mode % 2 ^ 16, user, group, dstpath, srcpath, attr⟩,
        i.rest)

end Irix.Inst
