/-!
# JSON documents

The requests and answers of the library are JSON texts. A number keeps the kind it was written
as: an integer that fits a signed 64-bit word, one that fits only an unsigned word, or a double
(a literal with a point or an exponent, or an integer too large for either word). Objects keep
their fields in order; looking a name up finds its last occurrence, as a map filled in reading
order would.
-/

namespace LazySeq

/-- A JSON number, by the kind the protocol distinguishes. -/
inductive Number where
  | signed (n : Int64)
  | unsigned (n : UInt64)
  | double (x : Float)
deriving Inhabited

/-- A JSON document. -/
inductive Json where
  | null
  | bool (b : Bool)
  | num (n : Number)
  | str (s : String)
  | arr (items : List Json)
  | obj (fields : List (String × Json))
deriving Inhabited

namespace Json

/-- The value of the last field called `name`, if the document is an object that has one. -/
def field? (j : Json) (name : String) : Option Json :=
  match j with
  | obj fields => (fields.reverse.find? (·.1 == name)).map (·.2)
  | _ => none

/-- The text of a string document. -/
def str? : Json → Option String
  | str s => some s
  | _ => none

/-- The items of an array document. -/
def arr? : Json → Option (List Json)
  | arr items => some items
  | _ => none

/-- A signed integer document. -/
def int (n : Int64) : Json := num (.signed n)

/-- A document for a count. -/
def nat (n : Nat) : Json :=
  if n < Nat.pow 2 63 then num (.signed (Int64.ofNat n)) else num (.unsigned (UInt64.ofNat n))

/-- A double document (finite values only are written as numbers). -/
def double (x : Float) : Json := num (.double x)

end Json

end LazySeq
