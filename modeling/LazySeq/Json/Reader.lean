import LazySeq.Json.Basic

/-!
# Reading JSON text

A recursive-descent reader over the characters of the text. Numbers are read the way the
protocol's peer reads them:

* an integer literal is a signed word when it fits one, an unsigned word when it fits only that,
  and a double otherwise (so is `-0`);
* a literal with a point or an exponent keeps at most the leading digits whose value fits an
  unsigned 64-bit word (later digits of the integer part only scale it by ten, later fraction
  digits are dropped), converts that significand to the nearest double, and then multiplies or
  divides once by the double nearest to `10^|e|`. Below `10^-308` it first divides by `1e308`.
  This is not always the double nearest to the literal, and answers depend on that.

Nesting deeper than 127 arrays or objects is refused. Every recursive call spends one unit of a
budget larger than the text, so the reader is total.

A refused text is answered with what is wrong and where: a line (from 1) and a column, the
number of bytes before that place on its line. Where that place is follows the reader the
protocol's peer uses. Most refusals stand one byte into the character that was looked at; a
number out of range stands after the literal, a refused code unit after its four digits, and a
refusal at the end of the text at the end.
-/

namespace LazySeq.Json

/-- The largest unsigned 64-bit value. -/
def wordMax : Nat := Nat.pow 2 64 - 1

/-- Blank characters between tokens. -/
def isBlank (c : Char) : Bool := c = ' ' || c = '\t' || c = '\n' || c = '\r'

/-- The text after leading blanks. -/
def skipBlank : List Char → List Char
  | [] => []
  | c :: cs => if isBlank c then skipBlank cs else c :: cs

/-- The value of a decimal digit. -/
def digitValue (c : Char) : Nat := c.toNat - '0'.toNat

/-- Whether appending digit `d` to `n` leaves the unsigned word range. -/
def overflows (n d : Nat) : Bool := n * 10 + d > wordMax

/-- The double nearest to `10^i`. -/
def powerOfTen (i : Nat) : Float := Float.ofScientific 1 false i

/-- A significand and a decimal exponent turned into a double: the significand is rounded to a
double, then scaled once by a power of ten. `none` when the value overflows. -/
def scaleSignificand (negative : Bool) (significand : Nat) (exponent : Int) : Option Float :=
  let rec go : Nat → Float → Int → Option Float
    | 0, f, _ => some f
    | fuel + 1, f, e =>
      if e.natAbs ≤ 308 then
        if 0 ≤ e then
          let g := f * powerOfTen e.toNat
          if g.isInf then none else some g
        else some (f / powerOfTen e.natAbs)
      else if f == 0 then some f
      else if 0 ≤ e then none
      else go fuel (f / powerOfTen 308) (e + 308)
  (go 8 (UInt64.ofNat significand).toFloat exponent).map fun f => if negative then -f else f

/-- Reads the digits of an integer part beyond the unsigned word: each one scales by ten. -/
def countDigits : List Char → Nat × List Char
  | c :: cs => if c.isDigit then let (n, r) := countDigits cs; (n + 1, r) else (0, c :: cs)
  | [] => (0, [])

/-- Accumulates integer-part digits while the significand fits; returns the significand, the
number of digits that no longer fit, and the rest. -/
def integerDigits : Nat → List Char → Nat × Nat × List Char
  | n, c :: cs =>
    if c.isDigit then
      if overflows n (digitValue c) then
        let (k, r) := countDigits (c :: cs)
        (n, k, r)
      else integerDigits (n * 10 + digitValue c) cs
    else (n, 0, c :: cs)
  | n, [] => (n, 0, [])

/-- Accumulates fraction digits while the significand fits, then skips the rest; returns the
significand, the number of digits taken, whether any digit was present, and the rest. -/
def fractionDigits : Nat → Nat → List Char → Nat × Nat × List Char
  | n, taken, c :: cs =>
    if c.isDigit then
      if overflows n (digitValue c) then (n, taken, (c :: cs).dropWhile Char.isDigit)
      else fractionDigits (n * 10 + digitValue c) (taken + 1) cs
    else (n, taken, c :: cs)
  | n, taken, [] => (n, taken, [])

/-- The largest signed 32-bit value, the bound of a written exponent. -/
def exponentMax : Nat := Nat.pow 2 31 - 1

/-- Exponent digits as read: their value, or the text after the digit that took the exponent
past the 32-bit range. -/
inductive ExponentDigits where
  | value (e : Nat) (rest : List Char)
  | overflow (after : List Char)

/-- Reads exponent digits, stopping at the first that leaves the 32-bit range. -/
def exponentDigits : Nat → List Char → ExponentDigits
  | n, c :: cs =>
    if c.isDigit then
      if n * 10 + digitValue c > exponentMax then .overflow cs
      else exponentDigits (n * 10 + digitValue c) cs
    else .value n (c :: cs)
  | n, [] => .value n []

/-- Clamps an exponent sum into the signed 32-bit range. -/
def clampExponent (e : Int) : Int := max (-(Int.pow 2 31)) (min e (Int.pow 2 31 - 1))

/-- An integer literal without point or exponent, as its kind. -/
def integerNumber (negative : Bool) (n : Nat) : Number :=
  if negative then
    if n = 0 ∨ n > Nat.pow 2 63 then .double (-(UInt64.ofNat n).toFloat)
    else .signed (Int64.ofInt (-(n : Int)))
  else if n < Nat.pow 2 63 then .signed (Int64.ofNat n) else .unsigned (UInt64.ofNat n)

/-- A refusal of the text: what is wrong, and how many bytes of the text lie at or after the
place where it is reported. -/
structure SyntaxError where
  message : String
  remaining : Nat

/-- The number of bytes of a text. -/
def byteCount (cs : List Char) : Nat := (cs.map Char.utf8Size).foldr (· + ·) 0

/-- A refusal reported just before `rest`. -/
def failAt {α : Type} (message : String) (rest : List Char) : Except SyntaxError α :=
  .error ⟨message, byteCount rest⟩

/-- A refusal reported one byte into `rest`, whose first byte was looked at or taken. -/
def failInto {α : Type} (message : String) (rest : List Char) : Except SyntaxError α :=
  .error ⟨message, byteCount rest - 1⟩

/-- Reads a number literal. -/
def readNumber (cs : List Char) : Except SyntaxError (Number × List Char) := do
  let (negative, cs) := match cs with
    | '-' :: r => (true, r)
    | r => (false, r)
  let (significand, extra, rest) ← match cs with
    | '0' :: r =>
      match r with
      | c :: _ => if c.isDigit then failInto "invalid number" r else pure (0, 0, r)
      | [] => pure (0, 0, r)
    | c :: _ =>
      if c.isDigit then pure (integerDigits 0 cs) else failInto "invalid number" cs
    | [] => failAt "EOF while parsing a value" []
  let isFloatStart (r : List Char) : Bool :=
    match r with
    | '.' :: _ | 'e' :: _ | 'E' :: _ => true
    | _ => false
  if !isFloatStart rest && extra = 0 then
    return (integerNumber negative significand, rest)
  let (significand, exponent, rest) ← match rest with
    | '.' :: r =>
      let (n, taken, r') := fractionDigits significand 0 r
      if taken = 0 && !(r.head?.map Char.isDigit).getD false then
        match r with
        | [] => failAt "EOF while parsing a value" []
        | _ => failInto "invalid number" r
      else pure (n, (extra : Int) - taken, r')
    | r => pure (significand, (extra : Int), r)
  let (scaled, rest) ← match rest with
    | c :: r =>
      if c = 'e' || c = 'E' then
        let (positiveExp, r) := match r with
          | '+' :: r' => (true, r')
          | '-' :: r' => (false, r')
          | r' => (true, r')
        match r with
        | d :: _ =>
          if !d.isDigit then failInto "invalid number" r
          else
            match exponentDigits 0 r with
            | .overflow after =>
              if significand ≠ 0 && positiveExp then failAt "number out of range" after
              else pure (some (if negative then -0.0 else 0.0), after.dropWhile Char.isDigit)
            | .value e r' =>
              let total := clampExponent (if positiveExp then exponent + e else exponent - e)
              pure (scaleSignificand negative significand total, r')
        | [] => failAt "EOF while parsing a value" []
      else pure (scaleSignificand negative significand exponent, c :: r)
    | [] => pure (scaleSignificand negative significand exponent, [])
  match scaled with
  | some x => return (.double x, rest)
  | none => failAt "number out of range" rest

/-- The value of a hexadecimal digit. -/
def hexValue (c : Char) : Option Nat :=
  if c.isDigit then some (digitValue c)
  else if 'a' ≤ c ∧ c ≤ 'f' then some (c.toNat - 'a'.toNat + 10)
  else if 'A' ≤ c ∧ c ≤ 'F' then some (c.toNat - 'A'.toNat + 10)
  else none

/-- The code unit of the four hexadecimal digits that begin `cs`, and the text after them. The
four bytes are taken whatever they are: fewer than four left is the end of the text, and four
that are not all digits are refused after them. -/
def readUnit (cs : List Char) : Except SyntaxError (Nat × List Char) :=
  let digits : Option (Nat × List Char) :=
    match cs with
    | a :: b :: c :: d :: r => do
      let va ← hexValue a
      let vb ← hexValue b
      let vc ← hexValue c
      let vd ← hexValue d
      return (((va * 16 + vb) * 16 + vc) * 16 + vd, r)
    | _ => none
  match digits with
  | some u => .ok u
  | none =>
    if byteCount cs < 4 then failAt "EOF while parsing a string" []
    else .error ⟨"invalid escape", byteCount cs - 4⟩

/-- The character of a `\u` escape whose first code unit `u` has been read and `cs` follows it.
A leading surrogate must be followed by the escape of a trailing one; a trailing surrogate on its
own is refused with the leading one's message, as the peer does. -/
def readEscapedUnit (u : Nat) (cs : List Char) : Except SyntaxError (Char × List Char) :=
  if 0xDC00 ≤ u ∧ u < 0xE000 then failAt "lone leading surrogate in hex escape" cs
  else if 0xD800 ≤ u ∧ u < 0xDC00 then
    match cs with
    | [] => failAt "EOF while parsing a string" []
    | '\\' :: r =>
      match r with
      | [] => failAt "EOF while parsing a string" []
      | 'u' :: r => do
        let (low, r) ← readUnit r
        if 0xDC00 ≤ low ∧ low < 0xE000 then
          return (Char.ofNat (0x10000 + (u - 0xD800) * 0x400 + (low - 0xDC00)), r)
        else failAt "lone leading surrogate in hex escape" r
      | r => failInto "unexpected end of hex escape" r
    | r => failInto "unexpected end of hex escape" r
  else .ok (Char.ofNat u, cs)

/-- Reads the body of a string after its opening quote (within `fuel` characters). -/
def readString : Nat → List Char → List Char → Except SyntaxError (String × List Char)
  | 0, cs, _ => failAt "EOF while parsing a string" cs
  | _, [], _ => failAt "EOF while parsing a string" []
  | fuel + 1, c :: r, acc =>
    if c = '"' then return (String.ofList acc.reverse, r)
    else if c = '\\' then
      match r with
      | [] => failAt "EOF while parsing a string" []
      | e :: r' =>
        match e with
        | '"' => readString fuel r' ('"' :: acc)
        | '\\' => readString fuel r' ('\\' :: acc)
        | '/' => readString fuel r' ('/' :: acc)
        | 'b' => readString fuel r' ('\x08' :: acc)
        | 'f' => readString fuel r' ('\x0c' :: acc)
        | 'n' => readString fuel r' ('\n' :: acc)
        | 'r' => readString fuel r' ('\r' :: acc)
        | 't' => readString fuel r' ('\t' :: acc)
        | 'u' => do
          let (u, r'') ← readUnit r'
          let (ch, r'') ← readEscapedUnit u r''
          readString fuel r'' (ch :: acc)
        | _ => failInto "invalid escape" r
    else if c.toNat < 0x20 then failInto "control character (\\u0000-\\u001F) found while parsing a string" (c :: r)
    else readString fuel r (c :: acc)

/-- Reads the rest of a literal name whose first letter has been taken. -/
def readIdent : List Char → List Char → Except SyntaxError (List Char)
  | [], r => .ok r
  | e :: es, c :: r => if c = e then readIdent es r else failInto "expected ident" (c :: r)
  | _ :: _, [] => failAt "EOF while parsing a value" []

mutual

/-- Reads one document; `depth` counts the open arrays and objects around it. -/
def readValue : Nat → Nat → List Char → Except SyntaxError (Json × List Char)
  | 0, _, cs => failAt "recursion limit exceeded" cs
  | fuel + 1, depth, cs =>
    match skipBlank cs with
    | 'n' :: r => do return (.null, ← readIdent ['u', 'l', 'l'] r)
    | 't' :: r => do return (.bool true, ← readIdent ['r', 'u', 'e'] r)
    | 'f' :: r => do return (.bool false, ← readIdent ['a', 'l', 's', 'e'] r)
    | '"' :: r => do
      let (s, r') ← readString (r.length + 1) r []
      return (.str s, r')
    | '[' :: r =>
      if depth + 1 ≥ 128 then failInto "recursion limit exceeded" ('[' :: r)
      else
        match skipBlank r with
        | ']' :: r' => return (.arr [], r')
        | [] => failAt "EOF while parsing a list" []
        | r' => readItems fuel (depth + 1) r' []
    | '{' :: r =>
      if depth + 1 ≥ 128 then failInto "recursion limit exceeded" ('{' :: r)
      else
        match skipBlank r with
        | '}' :: r' => return (.obj [], r')
        | [] => failAt "EOF while parsing an object" []
        | r' => readFields fuel (depth + 1) r' []
    | c :: r =>
      if c = '-' || c.isDigit then do
        let (n, r') ← readNumber (c :: r)
        return (.num n, r')
      else failInto "expected value" (c :: r)
    | [] => failAt "EOF while parsing a value" []

/-- Reads the items of an array from its first item on. -/
def readItems : Nat → Nat → List Char → List Json → Except SyntaxError (Json × List Char)
  | 0, _, cs, _ => failAt "recursion limit exceeded" cs
  | fuel + 1, depth, cs, acc => do
    let (v, r) ← readValue fuel depth cs
    match skipBlank r with
    | ',' :: r' =>
      match skipBlank r' with
      | ']' :: r'' => failInto "trailing comma" (']' :: r'')
      | [] => failAt "EOF while parsing a value" []
      | r'' => readItems fuel depth r'' (v :: acc)
    | ']' :: r' => return (.arr (v :: acc).reverse, r')
    | [] => failAt "EOF while parsing a list" []
    | r' => failInto "expected \x60,\x60 or \x60]\x60" r'

/-- Reads the fields of an object from its first key on. -/
def readFields : Nat → Nat → List Char → List (String × Json) → Except SyntaxError (Json × List Char)
  | 0, _, cs, _ => failAt "recursion limit exceeded" cs
  | fuel + 1, depth, cs, acc =>
    match cs with
    | '"' :: r => do
      let (name, r) ← readString (r.length + 1) r []
      match skipBlank r with
      | ':' :: r => do
        let (v, r) ← readValue fuel depth r
        match skipBlank r with
        | ',' :: r' =>
          match skipBlank r' with
          | '}' :: r'' => failInto "trailing comma" ('}' :: r'')
          | [] => failAt "EOF while parsing a value" []
          | r'' => readFields fuel depth r'' ((name, v) :: acc)
        | '}' :: r' => return (.obj ((name, v) :: acc).reverse, r')
        | [] => failAt "EOF while parsing an object" []
        | r' => failInto "expected \x60,\x60 or \x60\x7d\x60" r'
      | [] => failAt "EOF while parsing an object" []
      | r => failInto "expected \x60:\x60" r
    | cs => failInto "key must be a string" cs

end

/-- The line (from 1) and column (bytes before it on its line) of byte offset `i` of a text. -/
def lineColumn (text : List Char) (i : Nat) : Nat × Nat :=
  go text 0 1 0
where
  /-- Walks the text with `consumed` bytes behind. -/
  go : List Char → Nat → Nat → Nat → Nat × Nat
    | [], _, line, column => (line, column)
    | c :: cs, consumed, line, column =>
      if consumed + c.utf8Size ≤ i then
        if c = '\n' then go cs (consumed + c.utf8Size) (line + 1) 0
        else go cs (consumed + c.utf8Size) line (column + c.utf8Size)
      else (line, column + (i - consumed))

/-- Reads a whole text as one document; only blanks may follow it. A refusal says what is wrong
and at which line and column. -/
def read (text : String) : Except String Json :=
  let cs := text.toList
  let parsed : Except SyntaxError Json := do
    let (v, rest) ← readValue (2 * cs.length + 2) 0 cs
    match skipBlank rest with
    | [] => return v
    | r => failInto "trailing characters" r
  match parsed with
  | .ok v => .ok v
  | .error e =>
    let (line, column) := lineColumn cs (byteCount cs - e.remaining)
    .error (e.message ++ " at line " ++ toString line ++ " column " ++ toString column)

end LazySeq.Json
