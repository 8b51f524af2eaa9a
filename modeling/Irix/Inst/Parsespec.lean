import Irix.Inst.Product
import Irix.Inst.Record

/-! # Product specifications

`parsespec` converts the text of a specification into products, images and subsystems. One symbol is
looked at ahead. Some readers of operands take the next symbol too, and others leave it.
-/

namespace Irix.Inst.Spec

/-! ## What is made of the text -/

abbrev Strsize : Nat := 1024

/-- The fields that are set. -/
structure Subsys where
  flags : Nat
  name : Str
  id : Str
  exp : Str
  rep : List Mark
  prereq : List Prereq
  deriving DecidableEq

structure Image where
  flags : Nat
  name : Str
  id : Str
  format : Int
  order : Int
  version : Int
  length : Int
  padsize : Int
  subsys : List Subsys
  deriving DecidableEq

structure Prod where
  name : Str
  id : Str
  flags : Nat
  image : List Image
  deriving DecidableEq

def Main : Nat := 0x0001

def Default : Nat := 0x0002

def Add : Nat := 0x0040

def formatImage : Int := 1

/-- `maxint (long)` -/
def maxlong : Int := 2 ^ 31 - 1

/-! ## Symbols -/

inductive Sym where
  | eof
  | dot
  | error
  | exp
  | id
  | image
  | prereq
  | product
  | subsys
  | version
  | main
  | default
  | padsize
  | add
  | lpar
  | rpar
  | replaces
  | order
  deriving DecidableEq, Repr

/-- The texts that `nextsym` compares with, in its order. -/
def keywords : List (Str × Sym) :=
  [([46], .dot), ([40], .lpar), ([41], .rpar), ([101, 120, 112], .exp), ([105, 100], .id),
    ([105, 109, 97, 103, 101], .image), ([112, 114, 101, 114, 101, 113], .prereq),
    ([114, 101, 112, 108, 97, 99, 101, 115], .replaces),
    ([112, 114, 111, 100, 117, 99, 116], .product), ([115, 117, 98, 115, 121, 115], .subsys),
    ([118, 101, 114, 115, 105, 111, 110], .version), ([109, 97, 105, 110], .main),
    ([100, 101, 102, 97, 117, 108, 116], .default), ([112, 97, 100, 115, 105, 122, 101], .padsize),
    ([111, 114, 100, 101, 114], .order), ([97, 100, 100], .add)]

def symOf (p : Str) : Sym := if p = [] then .eof else (keywords.lookup p).getD .error

/-- `self` -/
def self : Str := [115, 101, 108, 102]

/-! ## The file -/

/-- The global variables. -/
structure State where
  /-- what has not been read of `sfile` -/
  rest : Str
  specline : Nat
  sym : Sym
  /-- Something has been written to memory that was not allocated. -/
  wild : Bool

inductive Result (α : Type) where
  | ok (a : α) (s : State)
  | exit (msg : String) (s : State)
  /-- The fuel is used up, or a buffer has been left. -/
  | unknown

def Parse (α : Type) : Type := State → Result α

namespace Parse

variable {α β : Type}

protected def pure (a : α) : Parse α := fun s => .ok a s

protected def bind (p : Parse α) (f : α → Parse β) : Parse β := fun s =>
  match p s with
  | .ok a s => f a s
  | .exit msg s => .exit msg s
  | .unknown => .unknown

instance : Monad Parse where
  pure := Parse.pure
  bind := Parse.bind

end Parse

variable {α : Type}

/-- The message, and `exit (1)`. -/
def online (msg : String) : Parse α := fun s => .exit msg s

def unknown : Parse α := fun _ => .unknown

def getSym : Parse Sym := fun s => .ok s.sym s

def setSym (p : Str) : Parse Unit := fun s => .ok () { s with sym := symOf p }

/-- Something is written behind the memory that has been allocated. -/
def overrun : Parse Unit := fun s => .ok () { s with wild := true }

/-- The line and the text from the next character of a token on. -/
def getnb : (comment : Bool) → Nat → Str → Nat × Str
  | _, line, [] => (line, [])
  | true, line, c :: s => if c = newline then getnb false (line + 1) s else getnb true line s
  | false, line, c :: s =>
    if c = newline then getnb false (line + 1) s
    else if c = 35 then getnb true line s
    else if c ≠ 32 ∧ c ≠ 9 then (line, c :: s)
    else getnb false line s

/-- A token without its first quote, and what is behind it. There is none if the file ends behind a
    backslash. -/
def scan (quote : Option UInt8) : Str → Option (Str × Str)
  | [] => some ([], [])
  | c :: s =>
    if (match quote with | some q => c == q | none => spaceByte c) then
      some ([], if quote = none then c :: s else s)
    else if c = backslash then
      match s with
      | [] => none
      | d :: s => (scan quote s).map fun (p, s) => (d :: p, s)
    else (scan quote s).map fun (p, s) => (c :: p, s)

section

variable (outside : Int → Bool) (getenv : Str → Option Str)

def isalnum (c : UInt8) : Bool :=
  if char c < 0 then outside (char c)
  else decide (48 ≤ c ∧ c ≤ 57 ∨ 65 ≤ c ∧ c ≤ 90 ∨ 97 ≤ c ∧ c ≤ 122)

/-- The name of a variable and what is behind it. -/
def variableName : Str → Str × Str
  | 123 :: s => (s.takeWhile (· ≠ 125), (s.dropWhile (· ≠ 125)).drop 1)
  | s => (s.takeWhile fun c => c == 95 || isalnum outside c,
      s.dropWhile fun c => c == 95 || isalnum outside c)

/-- Variables are replaced by their values. A backslash at the end has it go on behind the end. -/
def envsub : Nat → Str → Option Str
  | 0, _ => none
  | _ + 1, [] => some []
  | fuel + 1, c :: s =>
    if c = backslash then
      match s with
      | [] => none
      | d :: s => (envsub fuel s).map (d :: ·)
    else if c ≠ 36 then (envsub fuel s).map (c :: ·)
    else
      let (name, rest) := variableName outside s
      match getenv name with
      | some value => (envsub fuel rest).map (value ++ ·)
      | none => (envsub fuel s).map (36 :: ·)

/-- A token, as far as there is room for it, without what a null byte cuts off. -/
def token : Parse Str := fun s =>
  match getnb false s.specline s.rest with
  | (line, []) => .ok [] { s with rest := [], specline := line }
  | (line, c :: r) =>
    let (quote, r) := if isQuote c then (some c, r) else (none, c :: r)
    if r.head? = some LPAR ∨ r.head? = some RPAR then
      .ok (r.take 1) { s with rest := r.drop 1, specline := line }
    else
      match scan quote r with
      | none => .exit "unexpected end of file" { s with rest := [], specline := line }
      | some (p, rest) =>
        let p := (p.take (Strsize - 1)).takeWhile (· ≠ 0)
        let s := { s with rest := rest, specline := line }
        if quote = none ∨ quote = some 34 then
          match envsub outside getenv (p.length + 1) p with
          | none => .unknown
          | some p => if p.length < Strsize then .ok p s else .unknown
        else .ok p s

def nextsym : Parse Unit := do
  let p ← token outside getenv
  setSym p

inductive Move where
  | scan
  | stay

def strval (move : Move) : Parse Str := do
  let p ← token outside getenv
  match move with
  | .scan => nextsym outside getenv
  | .stay => pure ()
  pure p

/-- `atol` -/
def atol (p : Str) : Int :=
  let p := p.dropWhile fun c => c == 32 || c == 9
  let (f, p) := match p with
    | 45 :: p => (true, p)
    | 43 :: p => (false, p)
    | p => (false, p)
  let n := (p.takeWhile fun c => decide (48 ≤ c ∧ c ≤ 57)).foldl
    (fun n c => long (n * 10 + c.toNat - 48)) 0
  long (if f then -n else n)

def longval (move : Move) : Parse Int := do
  let p ← token outside getenv
  match move with
  | .scan => nextsym outside getenv
  | .stay => pure ()
  pure (atol p)

/-! ## The parser -/

/-- The loop of `getprereq`, which fills a table of no entries. -/
def getprereqLoop : Nat → List Mark → Parse (List Mark)
  | 0, _ => unknown
  | fuel + 1, pq => do
    let sym ← getSym
    if sym = .rpar then pure pq
    else do
      let pname ← strval outside getenv .stay
      overrun
      if pname = [] then online "unexpected eof"
      else do
        let iname ← strval outside getenv .stay
        if iname = [] then online "unexpected eof"
        else do
          let sname ← strval outside getenv .stay
          if sname = [] then online "unexpected eof"
          else do
            let lowvers ← longval outside getenv .scan
            getprereqLoop fuel (pq ++ [⟨pname, iname, sname, lowvers, maxlong⟩])

def getprereq (fuel : Nat) : Parse Prereq := do
  nextsym outside getenv
  let sym ← getSym
  if sym ≠ .lpar then online "expected left paren"
  else do
    nextsym outside getenv
    let pq ← getprereqLoop outside getenv fuel []
    pure ⟨pq⟩

/-- What is behind `replaces`. -/
def getreplaces (prName imName ssName : Str) (version : Int) : Parse Mark := do
  let pname ← strval outside getenv .stay
  if pname = self then do
    nextsym outside getenv
    pure ⟨prName, imName, ssName, 0, long (version - 1)⟩
  else do
    let iname ← strval outside getenv .stay
    let sname ← strval outside getenv .stay
    let lowvers ← longval outside getenv .stay
    let highvers ← longval outside getenv .scan
    pure ⟨pname, iname, sname, lowvers, highvers⟩

def getsubsysLoop (prName imName : Str) (version : Int) : Nat → Subsys → Parse Subsys
  | 0, _ => unknown
  | fuel + 1, ss => do
    let sym ← getSym
    match sym with
    | .eof => online "unexpected end of file"
    | .id => do
      let id ← strval outside getenv .scan
      getsubsysLoop prName imName version fuel { ss with id := id }
    | .default => do
      nextsym outside getenv
      getsubsysLoop prName imName version fuel { ss with flags := ss.flags ||| Default }
    | .main => do
      nextsym outside getenv
      getsubsysLoop prName imName version fuel { ss with flags := ss.flags ||| Main }
    | .exp => do
      let exp ← strval outside getenv .scan
      getsubsysLoop prName imName version fuel { ss with exp := exp }
    | .prereq => do
      let prereq ← getprereq outside getenv fuel
      getsubsysLoop prName imName version fuel { ss with prereq := ss.prereq ++ [prereq] }
    | .replaces => do
      let mark ← getreplaces outside getenv prName imName ss.name version
      getsubsysLoop prName imName version fuel { ss with rep := ss.rep ++ [mark] }
    | .dot => do
      nextsym outside getenv
      pure ss
    | _ => online "unrecognized subsystem component"

def getsubsys (prName imName : Str) (version : Int) (fuel : Nat) : Parse Subsys := do
  let name ← strval outside getenv .scan
  getsubsysLoop outside getenv prName imName version fuel
    { flags := 0, name := name, id := [], exp := [], rep := [], prereq := [] }

def getimageLoop (prName : Str) : Nat → Image → Parse Image
  | 0, _ => unknown
  | fuel + 1, im => do
    let sym ← getSym
    match sym with
    | .eof => online "unexpected end of file"
    | .dot => do
      nextsym outside getenv
      pure im
    | .version => do
      let version ← longval outside getenv .scan
      getimageLoop prName fuel { im with version := version }
    | .add => do
      nextsym outside getenv
      getimageLoop prName fuel { im with flags := im.flags ||| Add }
    | .id => do
      let id ← strval outside getenv .scan
      getimageLoop prName fuel { im with id := id }
    | .padsize => do
      let padsize ← longval outside getenv .scan
      getimageLoop prName fuel { im with padsize := padsize }
    | .order => do
      let order ← longval outside getenv .scan
      getimageLoop prName fuel { im with order := short order }
    | .subsys => do
      let ss ← getsubsys outside getenv prName im.name im.version fuel
      getimageLoop prName fuel { im with subsys := im.subsys ++ [ss] }
    | _ => online "unrecognized image component"

def getimage (padsize : Int) (prName : Str) (fuel : Nat) : Parse Image := do
  let name ← strval outside getenv .scan
  getimageLoop outside getenv prName fuel
    { flags := 0, name := name, id := [], format := formatImage, order := 0, version := 0, length := 0,
      padsize := padsize, subsys := [] }

def getprodLoop (padsize : Int) : Nat → Prod → Parse Prod
  | 0, _ => unknown
  | fuel + 1, prod => do
    let sym ← getSym
    match sym with
    | .eof => online "unexpected end of file"
    | .image => do
      let image ← getimage outside getenv padsize prod.name fuel
      getprodLoop padsize fuel { prod with image := prod.image ++ [image] }
    | .id => do
      let id ← strval outside getenv .scan
      getprodLoop padsize fuel { prod with id := id }
    | .dot => do
      nextsym outside getenv
      pure prod
    | _ => online "unrecognized product component"

def getprod (padsize : Int) (fuel : Nat) : Parse Prod := do
  let name ← strval outside getenv .scan
  getprodLoop outside getenv padsize fuel { name := name, id := [], flags := 0, image := [] }

def parsespecLoop (padsize : Int) : Nat → List Prod → Parse (List Prod)
  | 0, _ => unknown
  | fuel + 1, spec => do
    let sym ← getSym
    if sym = .product then do
      let prod ← getprod outside getenv padsize fuel
      parsespecLoop padsize fuel (spec ++ [prod])
    else if sym ≠ .eof then online "expected product spec"
    else pure spec

/-- The specification in a file. -/
def parsespec (padsize : Int) (fuel : Nat) (file : Str) : Result (List Prod) :=
  (do nextsym outside getenv; parsespecLoop outside getenv padsize fuel [] : Parse (List Prod))
    ⟨file, 1, .eof, false⟩

end

end Irix.Inst.Spec
