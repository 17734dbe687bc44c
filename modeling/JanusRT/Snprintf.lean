import JanusRT.Structs

/-!
# Formatted output

`snprintf.c` of the run-time's own C library. Characters are bytes and a C string is a
list of them that ends at its first zero, or with the list. The pointer into the format
is a cursor that remembers the character before it. Arguments are the slots `va_arg`
takes them from: a machine word, a string or a floating-point number; taking a slot of
the wrong kind is undefined. `int` and `int64_t` arithmetic wraps. The floating-point
conversions are a parameter: the characters they put out.
-/
namespace JanusRT.Snprintf

/-- The byte of a character constant. -/
def ch (c : Char) : UInt8 := c.toNat.toUInt8

/-- Conversion to `int`. -/
def i32 (x : ℤ) : ℤ := x.bmod (2 ^ 32)

/-- Conversion to `int64_t`. -/
def i64 (x : ℤ) : ℤ := x.bmod (2 ^ 64)

def isDigit (c : UInt8) : Bool := ch '0' ≤ c ∧ c ≤ ch '9'

/-- `out_t`; the buffer is a function of the index. -/
structure Out where
  buf : ℕ → UInt8
  cap : ℕ
  len : ℕ

/-- `out_init`. -/
def outInit (dst : ℕ → UInt8) (n : ℕ) : Out := ⟨dst, if n ≠ 0 then n - 1 else 0, 0⟩

/-- `out_putc`. -/
def outPutc (o : Out) (c : UInt8) : Out :=
  { o with
    buf := if o.len < o.cap then Function.update o.buf o.len c else o.buf
    len := (o.len + 1) % u64 }

/-- `out_write_n`. -/
def outWriteN (o : Out) (s : List UInt8) (n : ℕ) : Out :=
  (List.range n).foldl (fun o i => outPutc o (s.getD i 0)) o

/-- `out_terminate`. -/
def outTerminate (o : Out) : Out :=
  if 0 < o.cap then
    { o with buf := Function.update o.buf (if o.len < o.cap then o.len else o.cap) 0 }
  else o

/-- `cstr_len`. -/
def cstrLen (s : List UInt8) : ℕ := (s.takeWhile (· ≠ 0)).length

/-- The flag bits of `fmt_t`. -/
structure Flags where
  left : Bool := false
  sign : Bool := false
  zero : Bool := false
  alt : Bool := false
  sp : Bool := false
  deriving DecidableEq, Repr

/-- The length modifiers. -/
inductive LenCode
  | none | hh | h | l | ll | j | z | t | L
  deriving DecidableEq, Repr

/-- `fmt_t`; `param_idx` is not used by the source. -/
structure Fmt where
  flags : Flags := {}
  width : ℤ := -1
  prec : ℤ := -1
  len : LenCode := .none
  type : UInt8 := 0
  deriving DecidableEq, Repr

/-- The digits of `utoa_rev`. -/
def digs (upper : Bool) (d : ℕ) : UInt8 :=
  if d < 10 then ch '0' + d.toUInt8
  else (if upper then ch 'A' else ch 'a') + (d - 10).toUInt8

/-- The loop of `utoa_rev`. A 64-bit number has at most as many digits as `tmp` holds. -/
def utoaLoop (base : ℕ) (upper : Bool) : ℕ → ℕ → List UInt8
  | 0, _ => []
  | fuel + 1, v => if v = 0 then [] else digs upper (v % base) :: utoaLoop base upper fuel (v / base)

/-- `utoa_rev`. -/
def utoaRev (v base : ℕ) (upper : Bool) : List UInt8 :=
  if v = 0 then [ch '0'] else utoaLoop base upper 64 v

/-- `pad`. -/
def pad (o : Out) (c : UInt8) (count : ℤ) : Out :=
  (List.range count.toNat).foldl (fun o _ => outPutc o c) o

/-- `sign_ch`, where zero means none. -/
def signCh (f : Fmt) (neg : Bool) : UInt8 :=
  if neg then ch '-' else if f.flags.sign then ch '+' else if f.flags.sp then ch ' ' else 0

/-- `emit_int`. -/
def emitInt (o : Out) (f : Fmt) (uval : ℕ) (neg : Bool) (base : ℕ) (upper : Bool) : Out :=
  let tmp := utoaRev uval base upper
  let ndig := if f.prec = 0 ∧ uval = 0 then 0 else tmp.length
  let sign := signCh f neg
  let pre :=
    if f.flags.alt ∧ uval ≠ 0 then
      if base = 8 then [ch '0']
      else if base = 16 then [ch '0', if upper then ch 'X' else ch 'x']
      else []
    else []
  let fixed : ℤ := ndig + pre.length + if sign ≠ 0 then 1 else 0
  let zeros : ℤ :=
    if 0 ≤ f.prec then
      if (ndig : ℤ) < f.prec then f.prec - ndig else 0
    else if f.flags.zero ∧ ¬ f.flags.left ∧ 0 < f.width then
      if fixed < f.width then f.width - fixed else 0
    else 0
  let totalLen := i32 (fixed + zeros)
  let padLen := if totalLen < f.width then i32 (f.width - totalLen) else 0
  let o := if f.flags.left then o else pad o (ch ' ') padLen
  let o := if sign ≠ 0 then outPutc o sign else o
  let o := outWriteN o pre pre.length
  let o := pad o (ch '0') zeros
  let o := (List.range ndig).foldl (fun o i => outPutc o (tmp.getD (ndig - 1 - i) 0)) o
  if f.flags.left then pad o (ch ' ') padLen else o

/-- A pointer into the format. -/
structure Cursor where
  last : UInt8
  rest : List UInt8
  deriving DecidableEq, Repr

/-- `*p`. -/
def Cursor.peek (c : Cursor) : UInt8 := c.rest.headD 0

/-- `p + 1`. -/
def Cursor.next (c : Cursor) : Cursor :=
  match c.rest with
  | [] => c
  | x :: xs => ⟨x, xs⟩

/-- What stops a call: an argument that is missing or of another kind, or a loop that does
not end. -/
inductive Fault
  | argument | hang
  deriving DecidableEq, Repr

/-- A slot of the `va_list`. -/
inductive Arg (δ : Type)
  | word (v : ℕ)
  | str (s : Option (List UInt8))
  | real (x : δ)

section
variable {δ : Type}

def vaWord : List (Arg δ) → Except Fault (ℕ × List (Arg δ))
  | .word v :: ap => .ok (v, ap)
  | _ => .error .argument

def vaStr : List (Arg δ) → Except Fault (Option (List UInt8) × List (Arg δ))
  | .str s :: ap => .ok (s, ap)
  | _ => .error .argument

def vaReal : List (Arg δ) → Except Fault (δ × List (Arg δ))
  | .real x :: ap => .ok (x, ap)
  | _ => .error .argument

/-- `va_arg(ap, int)`. -/
def vaInt (ap : List (Arg δ)) : Except Fault (ℤ × List (Arg δ)) := do
  let (v, ap) ← vaWord ap
  return (i32 v, ap)

/-- `parse_flags`. -/
def parseFlags (last : UInt8) : List UInt8 → Flags → Cursor × Flags
  | [], f => (⟨last, []⟩, f)
  | c :: cs, f =>
    if c = ch '-' then parseFlags c cs { f with left := true }
    else if c = ch '+' then parseFlags c cs { f with sign := true }
    else if c = ch '0' then parseFlags c cs { f with zero := true }
    else if c = ch '#' then parseFlags c cs { f with alt := true }
    else if c = ch ' ' then parseFlags c cs { f with sp := true }
    else (⟨last, c :: cs⟩, f)

/-- The loop over decimal digits, in the arithmetic `wrap`: the value and whether there
was a digit. -/
def parseDigits (wrap : ℤ → ℤ) (last : UInt8) : List UInt8 → Bool → ℤ → Cursor × Bool × ℤ
  | [], any, v => (⟨last, []⟩, any, v)
  | c :: cs, any, v =>
    if isDigit c then parseDigits wrap c cs true (wrap (v * 10 + (c.toNat - (ch '0').toNat : ℤ)))
    else (⟨last, c :: cs⟩, any, v)

/-- `parse_width_prec`. -/
def parseWidthPrec (c : Cursor) (ap : List (Arg δ)) : Except Fault (Cursor × ℤ × List (Arg δ)) :=
  if c.peek = ch '*' then do
    let (v, ap) ← vaInt ap
    return (c.next, if v < 0 then i32 (-v) else v, ap)
  else
    let (c, any, v) := parseDigits i32 c.last c.rest false 0
    return (c, if any then v else -1, ap)

/-- The precision, which `vsnprintf` parses itself. -/
def parsePrec (c : Cursor) (ap : List (Arg δ)) : Except Fault (Cursor × ℤ × List (Arg δ)) :=
  if c.peek = ch '.' then
    let c := c.next
    if c.peek = ch '*' then do
      let (v, ap) ← vaInt ap
      return (c.next, if v < 0 then -1 else v, ap)
    else
      let (c, any, v) := parseDigits i64 c.last c.rest false 0
      return (c, if any then i32 v else 0, ap)
  else return (c, -1, ap)

/-- `parse_len`. -/
def parseLen (c : Cursor) : Cursor × LenCode :=
  if c.peek = ch 'h' ∧ c.next.peek = ch 'h' then (c.next.next, .hh)
  else if c.peek = ch 'h' then (c.next, .h)
  else if c.peek = ch 'l' ∧ c.next.peek = ch 'l' then (c.next.next, .ll)
  else if c.peek = ch 'l' then (c.next, .l)
  else if c.peek = ch 'j' then (c.next, .j)
  else if c.peek = ch 'z' then (c.next, .z)
  else if c.peek = ch 't' then (c.next, .t)
  else if c.peek = ch 'L' then (c.next, .L)
  else (c, .none)

/-- The conversion after a percent sign, up to and with its type. A width below zero after
`*` would mean left-justified output. -/
def parseSpec (c : Cursor) (ap : List (Arg δ)) : Except Fault (Fmt × Cursor × List (Arg δ)) := do
  let (c, flags) := parseFlags c.last c.rest {}
  let (c, width, ap) ← parseWidthPrec c ap
  let (flags, width) :=
    if width < 0 ∧ c.last = ch '*' then ({ flags with left := true }, i32 (-width))
    else (flags, width)
  let (c, prec, ap) ← parsePrec c ap
  let (c, len) := parseLen c
  return (⟨flags, width, prec, len, c.peek⟩, if c.peek ≠ 0 then c.next else c, ap)

/-- `get_uint_arg`. -/
def getUintArg (ap : List (Arg δ)) (len : LenCode) : Except Fault (ℕ × List (Arg δ)) := do
  let (v, ap) ← vaWord ap
  return (v % 2 ^ match len with
    | .hh => 8
    | .h => 16
    | .l | .ll | .j | .z | .t => 64
    | .none | .L => 32, ap)

/-- `get_int_arg`. -/
def getIntArg (ap : List (Arg δ)) (len : LenCode) : Except Fault (ℤ × List (Arg δ)) := do
  let (v, ap) ← vaWord ap
  return ((v : ℤ).bmod (2 ^ match len with
    | .hh => 8
    | .h => 16
    | .l | .ll | .j | .z | .t => 64
    | .none | .L => 32), ap)

/-- The cases of the switch over the type. -/
inductive Conv
  | percent | char | str | signed | unsigned (base : ℕ) (upper : Bool) | pointer | count | float
  | unknown
  deriving DecidableEq, Repr

def convOf (type : UInt8) : Conv :=
  if type = ch '%' then .percent
  else if type = ch 'c' then .char
  else if type = ch 's' then .str
  else if type = ch 'd' ∨ type = ch 'i' then .signed
  else if type = ch 'u' then .unsigned 10 false
  else if type = ch 'o' then .unsigned 8 false
  else if type = ch 'x' then .unsigned 16 false
  else if type = ch 'X' then .unsigned 16 true
  else if type = ch 'p' then .pointer
  else if type = ch 'n' then .count
  else if type = ch 'f' ∨ type = ch 'F' ∨ type = ch 'e' ∨ type = ch 'E' ∨ type = ch 'g' ∨
    type = ch 'G' then .float
  else .unknown

/-- A store by `%n`: through which pointer, at which length, which count. -/
structure CountStore where
  ptr : ℕ
  len : LenCode
  written : ℕ

/-- The output, the arguments that are left and what `%n` has stored. -/
structure Run (δ : Type) where
  out : Out
  ap : List (Arg δ)
  stores : List CountStore

/-- The flags of an integer conversion: a precision overrides the zeros. -/
def Fmt.dropZero (f : Fmt) : Fmt :=
  if 0 ≤ f.prec then { f with flags := { f.flags with zero := false } } else f

/-- Text in its field. -/
def emitField (o : Out) (f : Fmt) (padLen : ℤ) (s : List UInt8) (n : ℕ) : Out :=
  let o := if f.flags.left then o else pad o (ch ' ') padLen
  let o := outWriteN o s n
  if f.flags.left then pad o (ch ' ') padLen else o

/-- `(null)`. -/
def nullText : List UInt8 := "(null)".toList.map ch

/-- The switch over the type; `float` gives the characters of a floating-point
conversion. -/
def convert (float : Fmt → δ → List UInt8) (f : Fmt) (r : Run δ) : Except Fault (Run δ) :=
  match convOf f.type with
  | .percent => return { r with out := outPutc r.out (ch '%') }
  | .char => do
    let (v, ap) ← vaWord r.ap
    let padLen := if 1 < f.width then f.width - 1 else 0
    return { r with out := emitField r.out f padLen [v.toUInt8] 1, ap }
  | .str => do
    let (s, ap) ← vaStr r.ap
    let s := s.getD nullText
    let sl := cstrLen s
    let sl := if 0 ≤ f.prec ∧ f.prec < sl then f.prec.toNat else sl
    let padLen := if i32 sl < f.width then i32 (f.width - i32 sl) else 0
    return { r with out := emitField r.out f padLen s sl, ap }
  | .signed => do
    let (v, ap) ← getIntArg r.ap f.len
    let u := if v < 0 then (-v).toNat % u64 else v.toNat
    return { r with out := emitInt r.out f.dropZero u (v < 0) 10 false, ap }
  | .unsigned base upper => do
    let (u, ap) ← getUintArg r.ap f.len
    return { r with out := emitInt r.out f.dropZero u false base upper, ap }
  | .pointer => do
    let (pt, ap) ← vaWord r.ap
    let g := { f with flags := { f.flags with alt := true, sign := false, sp := false }, prec := 16 }
    return { r with out := emitInt r.out g (pt % u64) false 16 false, ap }
  | .count => do
    let (ptr, ap) ← vaWord r.ap
    return { r with ap, stores := ⟨ptr, f.len, r.out.len⟩ :: r.stores }
  | .float => do
    let (x, ap) ← vaReal r.ap
    return { r with out := outWriteN r.out (float f x) (float f x).length, ap }
  | .unknown => return { r with out := outPutc (outPutc r.out (ch '%')) f.type }

/-- The loop of `vsnprintf`. -/
def formatLoop (float : Fmt → δ → List UInt8) : ℕ → Cursor → Run δ → Except Fault (Run δ)
  | 0, _, _ => .error .hang
  | fuel + 1, c, r =>
    if c.peek = 0 then .ok r
    else if c.peek ≠ ch '%' then
      formatLoop float fuel c.next { r with out := outPutc r.out c.peek }
    else do
      let (f, c, ap) ← parseSpec c.next r.ap
      if f.type = 0 then return { r with ap }
      let r ← convert float f { r with ap }
      formatLoop float fuel c r

/-- What a call leaves behind. -/
structure Printed where
  ret : ℤ
  buf : ℕ → UInt8
  stores : List CountStore

/-- `vsnprintf`. Every round of the loop moves on by at least one character. -/
def vsnprintf (float : Fmt → δ → List UInt8) (dst : ℕ → UInt8) (n : ℕ) (fmt : List UInt8)
    (ap : List (Arg δ)) : Except Fault Printed := do
  let r ← formatLoop float (fmt.length + 1) ⟨0, fmt⟩ ⟨outInit dst n, ap, []⟩
  let o := outTerminate r.out
  return ⟨i32 o.len, o.buf, r.stores⟩

end

end JanusRT.Snprintf
