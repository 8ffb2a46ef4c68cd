import WireLayout.Keyed
import WireLayout.Position
import WireLayout.Float.Shortest

/-!
# Values

What unpacking produces and packing consumes. Integers of every width are `Value.int`, both floating-point widths are
`Value.float`. `Value.null` stands for "nothing here": fields that were skipped unpack as null, and packing null writes the zero
value of a schema. Records keep the order in which their keys were inserted.
-/

namespace WireLayout

/-- A dynamically shaped value. -/
inductive Value where
  | null
  | int (n : Int64)
  | float (x : Float)
  | text (s : String)
  | list (items : List Value)
  | record (fields : List (String × Value))
  deriving Inhabited

namespace Value

/-- The name of a value's shape, as faults report it. -/
def typeName : Value → String
  | null => "null"
  | int _ => "integer"
  | float _ => "float"
  | text _ => "string"
  | list _ => "array"
  | record _ => "object"

/-- Whether there is nothing here. -/
def isNull : Value → Bool
  | null => true
  | _ => false

/-- Whether this is an integer or a float. -/
def isNumber : Value → Bool
  | int _ | float _ => true
  | _ => false

/-- Whether this is a float that is no number. -/
def isNaN : Value → Bool
  | float x => x.isNaN
  | _ => false

/-- The integer nearest to `n` that 64 bits can hold. -/
def clampInt64 (n : Int) : Int64 :=
  if n < Int64.minValue.toInt then Int64.minValue
  else if Int64.maxValue.toInt < n then Int64.maxValue
  else Int64.ofInt n

/-- The integer view: a finite float loses its fractional part, and stops at the ends of the 64-bit range. -/
def integer? : Value → Option Int64
  | int n => some n
  | float x => (FloatDatum.ofFloat x).truncate?.map clampInt64
  | _ => none

/-- The float view: an integer becomes the nearest float. -/
def float? : Value → Option Float
  | int n => some (FloatDatum.ofInt n.toInt).toFloat
  | float x => some x
  | _ => none

/-- The view as a count or size: a whole number that is not negative, at most the largest machine word. -/
def count? : Value → Option Nat
  | int n => if 0 ≤ n.toInt then some n.toInt.toNat else none
  | float x => (FloatDatum.ofFloat x).wholeNumber?.map (min (wordBound - 1))
  | _ => none

/-- The text, if this is a text. -/
def text? : Value → Option String
  | text s => some s
  | _ => none

/-- The items, if this is a list. -/
def list? : Value → Option (List Value)
  | list items => some items
  | _ => none

/-- The fields, if this is a record. -/
def record? : Value → Option (Keyed Value)
  | record fields => some fields
  | _ => none

/-- A count as a value: the low 64 bits of the number. -/
def ofCount (n : Nat) : Value := int (Int64.ofNat n)

/-- An integer as a value: its low 64 bits. -/
def ofInt (n : Int) : Value := int (Int64.ofInt n)

/-- The float that a single-precision bit pattern stands for. -/
def ofSingleBits (bits : UInt32) : Value := float (FloatFormat.single.decode bits.toNat).toFloat

/-- The field under a key; items of a list are addressed by their position. -/
def get? (v : Value) (key : String) : Option Value :=
  match v with
  | record fields => fields.lookup key
  | list items => Position.lookup key items
  | _ => none

/-- Equality of contents: floats compare as numbers, and the order of a record's fields does not count. -/
def beq : Value → Value → Bool
  | null, null => true
  | int a, int b => a == b
  | float a, float b => a == b
  | text a, text b => a == b
  | list as, list bs => beqItems as bs
  | record as, record bs => as.length == bs.length && beqFields as bs
  | _, _ => false
where
  /-- Items are compared one by one. -/
  beqItems : List Value → List Value → Bool
    | [], [] => true
    | a :: as, b :: bs => beq a b && beqItems as bs
    | _, _ => false
  /-- Every field on the left has an equal one under the same key on the right. -/
  beqFields : List (String × Value) → List (String × Value) → Bool
    | [], _ => true
    | (key, a) :: rest, bs =>
      (match bs.lookup key with
        | some b => beq a b
        | none => false) && beqFields rest bs

instance : BEq Value where
  beq := beq

/-- Equality that takes an integer and a float for the same number when they are. -/
def looselyEq (a b : Value) : Bool :=
  match a, b with
  | int m, int n => m == n
  | _, _ =>
    match a.float?, b.float? with
    | some x, some y => x == y
    | _, _ => a == b

/-- The literal form: null, decimal numbers, texts in single quotes, lists in brackets, records in braces. -/
def literal : Value → String
  | null => "null"
  | int n => toString n.toInt
  | float x => shortestText x
  | text s => "'" ++ s ++ "'"
  | list items => "[" ++ ",".intercalate (literals items) ++ "]"
  | record fields => "\x7b" ++ ",".intercalate (fieldLiterals fields) ++ "\x7d"
where
  /-- The literal forms of items. -/
  literals : List Value → List String
    | [] => []
    | v :: rest => literal v :: literals rest
  /-- The literal forms of fields: key, colon, value. -/
  fieldLiterals : List (String × Value) → List String
    | [] => []
    | (key, v) :: rest => (key ++ ":" ++ literal v) :: fieldLiterals rest

/-- The text form of an operand: a text as it is, anything else in its literal form. -/
def plainText : Value → String
  | text s => s
  | v => v.literal

/-- Adds two operands. Integers wrap around at 64 bits, a text on either side concatenates the text forms, other numbers add as
floats, and a value that is no number leaves the other one as it is. -/
def add (lhs rhs : Value) : Value :=
  match lhs, rhs with
  | int a, int b => int (a + b)
  | text _, _ | _, text _ => text (lhs.plainText ++ rhs.plainText)
  | _, _ =>
    match lhs.float?, rhs.float? with
    | some a, some b => float (a + b)
    | some _, none => lhs
    | none, _ => rhs

end Value

end WireLayout
