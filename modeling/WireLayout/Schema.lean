import WireLayout.Number
import WireLayout.Options

/-!
# Schemas

A `Candidate` is anything that may stand for a schema: a name, a raw field layout, or a schema. Composite schemas keep their
children as candidates, which are resolved only when the schema runs; so named schemas may refer to each other, and to names that
are registered later. A `Selector` chooses a schema from the value of a sibling field, either as an application of a schema builder
that lacks its last argument, or as a function.

An `Extension` is a schema kind defined by the user. Its reading side (`Reader`) and writing side (`Writer`) are programs: each
constructor is one request to the run it is part of, and holds the program for the answer. So an extension can do nothing but what
these requests offer, and a run of it ends.
-/

namespace WireLayout

/-- Byte footprint of a schema, as far as it is known without looking at data. -/
inductive Footprint where
  | fixed (size : Nat)
  | dynamic
  deriving DecidableEq, Repr

/-- The operand of a computed field. -/
inductive Operator where
  /-- Texts and numbers are added to the value; any other operand leaves the value as it is. -/
  | operand (v : Value)
  | function (apply : Value → Value)

/-- A named transform of bytes; the name is what schema texts show. -/
structure Transcoder where
  name : String
  apply : Bytes → Except Fault Bytes

/-- The builders of schemas. -/
inductive Builder where
  | array
  | bytes
  | shortArray
  | smallArray
  | longArray
  | string
  | cstring
  | object
  | union
  | enums
  | depend
  | dependArray
  | link
  | cases
  | computed
  | exit
  | parse
  deriving DecidableEq, Repr

/-- What an extension sees of the run it is part of. -/
structure View where
  /-- The read position, or the number of bytes written so far. -/
  position : Nat
  /-- The number of bytes not yet read; none when writing. -/
  remaining : Nat
  /-- The number of bytes of the input, or of the output so far. -/
  length : Nat
  options : Options
  /-- Whether a name is registered. -/
  hasName : String → Bool
  /-- Whether there is an object or union body around. -/
  isScoped : Bool
  /-- Whether that body was left. -/
  isExited : Bool
  /-- The value of a sibling field. -/
  field? : String → Option Value
  /-- The schema text of a sibling field. -/
  fieldText? : String → Option String
  /-- The output position at which a sibling field started. -/
  offset? : String → Option Nat

mutual

/-- Anything that may stand for a schema. -/
inductive Candidate where
  /-- A registered name, an alias, or a name that a pattern knows. -/
  | name (name : String)
  /-- A raw layout, which stands for the object of these fields. -/
  | fields (layout : Layout)
  /-- A schema, which stands for itself. -/
  | schema (schema : Schema)

/-- The fields of an object or union body, in wire order. -/
inductive Layout where
  /-- Fields with names: the value is a record. -/
  | named (fields : List (String × Candidate))
  /-- Fields with positions: the value is a list. -/
  | positional (items : List Candidate)

/-- The number of elements of an array, or of bytes of a region. -/
inductive Count where
  /-- This many. -/
  | fixed (n : Nat)
  /-- As many as the number says that stands right before them. -/
  | prefixed (number : Candidate)
  /-- As many as there are: reading goes to the end of the input. -/
  | auto

/-- A schema. -/
inductive Schema where
  | number (kind : Number)
  /-- Elements one after another. -/
  | array (item : Candidate) (count : Count)
  /-- Text in a region of bytes. -/
  | string (size : Count)
  /-- Text that a zero byte ends. -/
  | cstring (size : Count)
  /-- Fields one after another. -/
  | object (layout : Layout)
  /-- Fields that all start at the same place of a region. -/
  | union (layout : Layout) (size : Nat)
  /-- Names for numbers. -/
  | enums (names : List (String × Int64)) (base : Candidate)
  /-- The schema that a sibling field selects. -/
  | depend (field : String) (selector : Selector)
  /-- Elements whose count a sibling field stores. -/
  | link (field : String) (item : Candidate)
  /-- A field of no bytes, computed from a value. -/
  | computed (operator : Operator) (value : Value)
  /-- Ends the body around it. -/
  | exit
  /-- A byte region that a transform turns into the bytes of another schema. -/
  | parse (encode decode : Transcoder) (inner : Candidate) (size : Count)
  | custom (extension : Extension)

/-- Chooses a schema from the value of a sibling field. -/
inductive Selector where
  /-- The builder completed by the value as its last argument. -/
  | application (builder : Builder) (arguments : List Argument)
  | function (choose : Value → Except Fault Candidate)

/-- One argument of a builder. -/
inductive Argument where
  /-- A literal: a count, a size, a field name, null; a text names a schema where a schema is expected. -/
  | value (v : Value)
  | schema (candidate : Candidate)
  /-- Pairs of a value to match and a schema. -/
  | cases (pairs : List (Value × Candidate))
  | selector (selector : Selector)
  | operator (operator : Operator)
  | transcoder (transcoder : Transcoder)

/-- A schema kind defined by the user. -/
inductive Extension where
  | mk (name : String) (footprint : Footprint) (read : Reader) (write : Value → Writer)

/-- How an extension reads one value. -/
inductive Reader where
  | done (v : Value)
  | fail (fault : Fault)
  /-- Asks for the next `n` bytes. -/
  | take (n : Nat) (next : Bytes → Reader)
  /-- Moves to an absolute position. -/
  | seek (position : Nat) (next : Reader)
  /-- Asks what there is around. -/
  | inspect (next : View → Reader)
  /-- Asks for a value of another schema. -/
  | unpack (candidate : Candidate) (next : Value → Reader)
  /-- Ends the body around, in the name of a schema kind. -/
  | exit (kind : String) (next : Reader)

/-- How an extension writes one value. -/
inductive Writer where
  | done
  | fail (fault : Fault)
  /-- Appends bytes. -/
  | emit (bytes : Bytes) (next : Writer)
  /-- Asks what there is around. -/
  | inspect (next : View → Writer)
  /-- Appends a value of another schema. -/
  | pack (candidate : Candidate) (v : Value) (next : Writer)
  /-- Ends the body around, in the name of a schema kind. -/
  | exit (kind : String) (next : Writer)

end

namespace Operator

/-- Applies the operator to a value. -/
def apply : Operator → Value → Value
  | operand lhs, v =>
    match lhs with
    | .int _ | .float _ | .text _ => lhs.add v
    | _ => v
  | function f, v => f v

end Operator

namespace Extension

/-- The tag of the kind, which is also its text as a schema. -/
def name : Extension → String
  | mk name _ _ _ => name

/-- The declared footprint. -/
def footprint : Extension → Footprint
  | mk _ footprint _ _ => footprint

/-- The reading program. -/
def read : Extension → Reader
  | mk _ _ read _ => read

/-- The writing program for a value. -/
def write : Extension → Value → Writer
  | mk _ _ _ write => write

end Extension

namespace Builder

/-- The tag of the builder in texts and faults. -/
def name : Builder → String
  | array => "array"
  | bytes => "bytes"
  | shortArray => "shortArray"
  | smallArray => "smallArray"
  | longArray => "longArray"
  | string => "string"
  | cstring => "cstring"
  | object => "object"
  | union => "union"
  | enums => "enums"
  | depend => "depend"
  | dependArray => "dependArray"
  | link => "link"
  | cases => "cases"
  | computed => "virtual"
  | exit => "exit"
  | parse => "parse"

/-- The number of arguments. -/
def arity : Builder → Nat
  | exit => 0
  | bytes | shortArray | smallArray | longArray | string | cstring | object => 1
  | array | union | enums | depend | dependArray | link | cases | computed => 2
  | parse => 4

end Builder

namespace Schema

/-- The tag of the kind of schema. -/
def kindName : Schema → String
  | number _ => "number"
  | array _ _ => "array"
  | string _ => "string"
  | cstring _ => "cstring"
  | object _ => "object"
  | union _ _ => "union"
  | enums _ _ => "enums"
  | depend _ _ => "depend"
  | link _ _ => "link"
  | computed _ _ => "virtual"
  | exit => "exit"
  | parse _ _ _ _ => "parse"
  | custom extension => extension.name

/-- The footprint as declared. An array has a fixed one when its count is fixed and its item is itself a schema with a fixed one;
items that are names count as dynamic, because what they stand for may change. -/
def footprint : Schema → Footprint
  | number kind => .fixed kind.size
  | array (.schema item) (.fixed n) =>
    match item.footprint with
    | .fixed size => .fixed (size * n)
    | .dynamic => .dynamic
  | string (.fixed n) | cstring (.fixed n) | parse _ _ _ (.fixed n) => .fixed n
  | union _ size => .fixed size
  | computed _ _ | exit => .fixed 0
  | custom extension => extension.footprint
  | _ => .dynamic

end Schema

end WireLayout
