import Irix.Inst.Strings

/-! # Product descriptors

A product has images, an image has subsystems, a subsystem has marks of what it
replaces and groups of marks of what it needs.  Each table is written as a count
and its entries.
-/

namespace Irix.Inst

open Lib Lib.Reader Lib.Compare

/-- subsystem markers -/
structure Mark where
  pname : Str
  iname : Str
  sname : Str
  lowvers : Int
  highvers : Int
  deriving DecidableEq, Repr

structure Prereq where
  pq : List Mark
  deriving DecidableEq, Repr

/-- subsystem of image -/
structure Subsys where
  flags : Int
  name : Str
  id : Str
  exp : Str
  instdate : Int
  rep : List Mark
  prereq : List Prereq
  deriving DecidableEq, Repr

structure Image where
  flags : Int
  name : Str
  id : Str
  format : Int
  order : Int
  version : Int
  length : Int
  padsize : Int
  subsys : List Subsys
  deriving DecidableEq, Repr

structure Prod where
  name : Str
  id : Str
  flags : Int
  image : List Image
  deriving DecidableEq, Repr

/-- The bit `0x0001` of some flags. -/
def isMain (flags : Int) : Bool := flags % 2 = 1

/-- The bit `0x0020` of some flags. -/
def deleted (flags : Int) : Bool := flags / 32 % 2 = 1

abbrev magicProd : Int := 1987

abbrev formatProd : Int := 3

/-! ## Sorting -/

def cmpmk : Mark → Mark → Int :=
  andThen (fun m1 m2 => strcmp m1.pname m2.pname) <|
  andThen (fun m1 m2 => strcmp m1.iname m2.iname) <|
  andThen (fun m1 m2 => strcmp m1.sname m2.sname) <|
  andThen (fun m1 m2 => long (m2.lowvers - m1.lowvers))
    fun m1 m2 => long (m2.highvers - m1.highvers)

def cmpss : Subsys → Subsys → Int :=
  andThen (fun s1 s2 => strcmp s1.name s2.name) fun s1 s2 => long (s2.instdate - s1.instdate)

def cmpim : Image → Image → Int :=
  andThen (fun i1 i2 => strcmp i1.name i2.name) fun i1 i2 => long (i2.version - i1.version)

/-! ## Writing -/

section

variable (q : Qsort)

def writemark (mk : Mark) : List UInt8 :=
  putstr mk.pname ++ (putstr mk.iname ++ (putstr mk.sname ++ (putlong mk.lowvers ++
    putlong mk.highvers)))

def writemarks (mks : List Mark) : List UInt8 :=
  putshort mks.length ++ (q.sort cmpmk mks).flatMap writemark

/-- The loop of `writeprereqs`, which steps on twice each time around. -/
def writegroups : List Prereq → List UInt8
  | [] => []
  | [pr] => writemarks q pr.pq
  | pr :: _ :: rest => writemarks q pr.pq ++ writegroups rest

def writeprereqs (subsys : Subsys) : List UInt8 :=
  putshort subsys.prereq.length ++ writegroups q subsys.prereq

def writesubsys (ss : Subsys) : List UInt8 :=
  putshort ss.flags ++ (putstr ss.name ++ (putstr ss.id ++ (putstr ss.exp ++
    (putlong ss.instdate ++ (writemarks q ss.rep ++ writeprereqs q ss)))))

def writesubsyss (image : Image) : List UInt8 :=
  putshort (image.subsys.filter fun ss => !deleted ss.flags).length ++
    ((q.sort cmpss image.subsys).filter fun ss => !deleted ss.flags).flatMap (writesubsys q)

def writeimage (im : Image) : List UInt8 :=
  putshort im.flags ++ (putstr im.name ++ (putstr im.id ++ (putshort im.format ++
    (putshort im.order ++ (putlong im.version ++ (putlong im.length ++ (putlong im.padsize ++
      writesubsyss q im)))))))

def writeimages (prod : Prod) : List UInt8 :=
  putshort (prod.image.filter fun im => !deleted im.flags).length ++
    ((q.sort cmpim prod.image).filter fun im => !deleted im.flags).flatMap (writeimage q)

def writeprod (pr : Prod) : List UInt8 :=
  if deleted pr.flags then []
  else
    putshort magicProd ++ (putshort formatProd ++ (putstr pr.name ++ (putstr pr.id ++
      (putshort pr.flags ++ writeimages q pr))))

end

/-! ## Reading -/

def readmark : Reader UInt8 Mark := do
  let pname ← getstr
  let iname ← getstr
  let sname ← getstr
  let lowvers ← readlong
  let highvers ← readlong
  pure ⟨pname, iname, sname, lowvers, highvers⟩

def readmarks : Reader UInt8 (List Mark) := do
  let n ← readshort
  times readmark n.toNat

def readprereqs : Reader UInt8 (List Prereq) := do
  let n ← readshort
  times (do let pq ← readmarks; pure ⟨pq⟩) n.toNat

/-- A mark of the formats before 2. -/
def readoldmark : Reader UInt8 Mark := do
  let pname ← getstr
  let iname ← getstr
  let sname ← getstr
  let lowvers ← readlong
  pure ⟨pname, iname, sname, lowvers, 2 ^ 31 - 1⟩

/-- It returns no value when it does not fail, and `noValue` is taken for one. -/
def readoldprereqs (noValue : Int) : Reader UInt8 (List Prereq) := do
  let n ← readshort
  let pq ← times readoldmark n.toNat
  check (0 ≤ noValue)
  pure [⟨pq⟩]

section

variable (noValue format : Int)

/-- `pr` and `im` are the product and the image that the subsystem is of. -/
def readsubsys (prName imName : Str) (imVersion imLength : Int) : Reader UInt8 Subsys := do
  let flags ← readshort
  let name ← getstr
  let id ← getstr
  let exp ← getstr
  if 2 ≤ format then do
    let instdate ← readlong
    let rep ← readmarks
    let prereq ← readprereqs
    pure ⟨flags, name, id, exp, instdate, rep, prereq⟩
  else do
    let rep := [⟨prName, imName, name, 0, long (imVersion - 1)⟩]
    let prereq ← readoldprereqs noValue
    pure ⟨flags, name, id, exp, imLength, rep, prereq⟩

def readsubsyss (prName imName : Str) (imVersion imLength : Int) :
    Reader UInt8 (List Subsys) := do
  let n ← readshort
  times (readsubsys noValue format prName imName imVersion imLength) n.toNat

def readimage (prName : Str) : Reader UInt8 Image := do
  let flags ← readshort
  let name ← getstr
  let id ← getstr
  let imFormat ← readshort
  let order ← if 3 ≤ format then readshort else pure (if isMain flags then 1 else 0)
  let version ← readlong
  let length ← readlong
  let padsize ← readlong
  let subsys ← readsubsyss noValue format prName name version length
  pure ⟨flags, name, id, imFormat, order, version, length, padsize, subsys⟩

def readimages (prName : Str) : Reader UInt8 (List Image) := do
  let n ← readshort
  times (readimage noValue format prName) n.toNat

end

def readprod (noValue : Int) : Reader UInt8 Prod := do
  let i ← readshort
  check (i = magicProd)
  let format ← readshort
  check (format ≤ formatProd)
  let name ← getstr
  let id ← getstr
  let flags ← readshort
  let image ← readimages noValue format name
  pure ⟨name, id, flags, image⟩

end Irix.Inst
