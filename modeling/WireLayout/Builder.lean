import WireLayout.Schema.Layout
import WireLayout.Schema.Text

/-!
# Builders

A builder makes a schema from a fixed number of arguments. Arguments arrive untyped; each position of a builder says how its
argument is read (as a schema, a count, a size, ...), and the first argument that cannot be read that way decides the fault. A
`Partial` holds a builder with the arguments collected so far: applying further ones builds the schema as soon as none is missing,
so it does not matter in how many steps the arguments are given.
-/

namespace WireLayout

namespace Candidate

/-- Elements of `item`. -/
def array (item : Candidate) (count : Count) : Candidate := .schema (.array item count)

/-- A kind of number. -/
def number (kind : Number) : Candidate := .schema (.number kind)

/-- Single bytes. -/
def bytes (count : Count) : Candidate := array (number .uint8) count

/-- Elements of `item`, with their count in front as a number of the given kind. -/
def countedArray (item : Candidate) (kind : Number) : Candidate := array item (.prefixed (number kind))

/-- Text in a region. -/
def string (size : Count) : Candidate := .schema (.string size)

/-- Text that a zero byte ends. -/
def cstring (size : Count) : Candidate := .schema (.cstring size)

/-- Fields one after another. -/
def object (layout : Layout) : Candidate := .schema (.object layout)

/-- Fields that share one region. -/
def union (layout : Layout) (size : Nat) : Candidate := .schema (.union layout size)

/-- Names for numbers. -/
def enums (names : List (String × Int64)) (base : Candidate) : Candidate := .schema (.enums names base)

/-- Names for the numbers from zero up. -/
def enumsList (names : List String) (base : Candidate) : Candidate :=
  enums (names.zipIdx.map fun entry => (entry.1, Int64.ofNat entry.2)) base

/-- The schema that the value of a sibling field selects. -/
def depend (field : String) (selector : Selector) : Candidate := .schema (.depend field selector)

/-- As many elements as the value of a sibling field says. -/
def dependArray (field : String) (item : Candidate) : Candidate :=
  depend field (.application .array [.schema item])

/-- Elements whose count is stored in an earlier sibling field. -/
def link (field : String) (item : Candidate) : Candidate := .schema (.link field item)

/-- A field of no bytes. -/
def computed (operator : Operator) (value : Value) : Candidate := .schema (.computed operator value)

/-- Ends the body around it. -/
def exit : Candidate := .schema .exit

/-- A transformed region. -/
def parse (encode decode : Transcoder) (inner : Candidate) (size : Count) : Candidate :=
  .schema (.parse encode decode inner size)

end Candidate

namespace Selector

/-- Picks the schema of the first pair whose value matches. -/
def cases (pairs : List (Value × Candidate)) : Selector := .application .cases [.cases pairs]

/-- A field of no bytes, computed by the operator. -/
def computed (operator : Operator) : Selector := .application .computed [.operator operator]

end Selector

namespace Argument

/-- The fault of an argument that cannot be read as what its position asks for. -/
def mismatch (builder : Builder) (expected : String) (a : Argument) : Fault :=
  .invalidArgument builder.name (expected ++ ", found " ++ a.text)

/-- Reads a schema: a text is a name. -/
def candidate (builder : Builder) (a : Argument) : Except Fault Candidate :=
  match a with
  | .value (.text name) => .ok (.name name)
  | .schema candidate => .ok candidate
  | _ => .error (a.mismatch builder "expected a schema")

/-- Reads a count: null counts by itself, a number is fixed, a name or schema is the number in front. -/
def count (builder : Builder) (a : Argument) : Except Fault Count :=
  match a with
  | .value .null => .ok .auto
  | .value (.text name) => .ok (.prefixed (.name name))
  | .schema candidate => .ok (.prefixed candidate)
  | .value v =>
    if v.isNumber then
      match v.count? with
      | some n => .ok (.fixed n)
      | none => .error (.invalidArgument builder.name ("bad count " ++ v.literal))
    else .error (a.mismatch builder "expected a count")
  | _ => .error (a.mismatch builder "expected a count")

/-- Reads a size. -/
def size (builder : Builder) (a : Argument) : Except Fault Nat :=
  match a with
  | .value v =>
    match v.count? with
    | some n => .ok n
    | none => .error (a.mismatch builder "expected a size")
  | _ => .error (a.mismatch builder "expected a size")

/-- Reads the name of a field. -/
def field (builder : Builder) (a : Argument) : Except Fault String :=
  match a with
  | .value (.text field) => .ok field
  | _ => .error (a.mismatch builder "field must be a string")

/-- Reads a raw layout. -/
def layout (builder : Builder) (a : Argument) : Except Fault Layout :=
  match a with
  | .schema (.fields layout) => .ok layout
  | _ => .error (a.mismatch builder "expected a field layout")

/-- Reads a selector. -/
def asSelector (builder : Builder) (a : Argument) : Except Fault Selector :=
  match a with
  | .selector s => .ok s
  | _ => .error (a.mismatch builder "expected a selector")

/-- Reads a value. -/
def asValue (builder : Builder) (a : Argument) : Except Fault Value :=
  match a with
  | .value v => .ok v
  | _ => .error (a.mismatch builder "expected a value")

/-- Reads an operator; a value is an operand. -/
def asOperator (builder : Builder) (a : Argument) : Except Fault Operator :=
  match a with
  | .operator op => .ok op
  | .value v => .ok (.operand v)
  | _ => .error (a.mismatch builder "expected an operator")

/-- Reads a transcoder. -/
def asTranscoder (builder : Builder) (a : Argument) : Except Fault Transcoder :=
  match a with
  | .transcoder t => .ok t
  | _ => .error (a.mismatch builder "expected a transcoder")

/-- Reads pairs of a value and a schema. -/
def asCases (builder : Builder) (a : Argument) : Except Fault (List (Value × Candidate)) :=
  match a with
  | .cases pairs => .ok pairs
  | _ => .error (a.mismatch builder "expected [value, schema] pairs")

end Argument

namespace Builder

/-- The fault of a wrong number of arguments. -/
def arityFault (builder : Builder) (found : Nat) : Fault :=
  .invalidArgument builder.name ("takes " ++ toString builder.arity ++ " arguments, got " ++ toString found)

/-- The names of an enumeration given as a list. -/
def enumNames : List Value → Except Fault (List String)
  | [] => .ok []
  | v :: rest => do
    let name ← match v with
      | .text name => pure name
      | _ => .error (.invalidArgument Builder.enums.name ("bad enum name " ++ v.literal))
    pure (name :: (← enumNames rest))

/-- The names and numbers of an enumeration given as a record. -/
def enumEntries : Keyed Value → Except Fault (List (String × Int64))
  | [] => .ok []
  | (name, v) :: rest => do
    let n ← match v with
      | .int n => pure n
      | _ =>
        .error (.invalidArgument Builder.enums.name ("`" ++ name ++ "` maps to " ++ v.literal ++ ", expected an integer"))
    pure ((name, n) :: (← enumEntries rest))

/-- The enumeration that a value describes. -/
def enumsOf (map : Value) (base : Candidate) : Except Fault Candidate :=
  match map with
  | .list names => do pure (.enumsList (← enumNames names) base)
  | .record entries => do pure (.enums (← enumEntries entries) base)
  | _ => .error (.invalidArgument Builder.enums.name ("map must be a list or an object, found " ++ map.literal))

/-- The object of a layout; an object that is built already stays as it is. -/
def objectOf (a : Argument) : Except Fault Candidate :=
  match a with
  | .schema (.schema (.object layout)) => .ok (.object layout)
  | _ => do pure (.object (← a.layout .object))

/-- The schema of the first pair whose value matches. -/
def casesOf (pairs : List (Value × Candidate)) (v : Value) : Except Fault Candidate :=
  match pairs.find? fun pair => pair.1.looselyEq v with
  | some pair => .ok pair.2
  | none => .error (.unregisteredSchema ("cases(" ++ v.literal ++ ")"))

/-- Builds the schema from all its arguments, which are read from left to right unless the builder says otherwise. -/
def build (builder : Builder) (arguments : List Argument) : Except Fault Candidate :=
  match builder, arguments with
  | array, [item, count] => do
    let item ← item.candidate array
    let count ← count.count array
    pure (.array item count)
  | bytes, [count] => do pure (.bytes (← count.count bytes))
  | shortArray, [item] => do pure (.countedArray (← item.candidate shortArray) .uint8)
  | smallArray, [item] => do pure (.countedArray (← item.candidate smallArray) .uint16)
  | longArray, [item] => do pure (.countedArray (← item.candidate longArray) .uint32)
  | string, [size] => do pure (.string (← size.count string))
  | cstring, [size] => do pure (.cstring (← size.count cstring))
  | object, [layout] => objectOf layout
  | union, [layout, size] => do
    let layout ← layout.layout union
    let size ← size.size union
    pure (.union layout size)
  -- The base of an enumeration is read before its names.
  | enums, [map, base] => do
    let base ← base.candidate enums
    let map ← map.asValue enums
    enumsOf map base
  | depend, [field, selector] => do
    let field ← field.field depend
    let selector ← selector.asSelector depend
    pure (.depend field selector)
  | dependArray, [field, item] => do
    let field ← field.field dependArray
    let item ← item.candidate dependArray
    pure (.dependArray field item)
  | link, [field, item] => do
    let field ← field.field link
    let item ← item.candidate link
    pure (.link field item)
  | cases, [pairs, v] => do
    let pairs ← pairs.asCases cases
    let v ← v.asValue cases
    casesOf pairs v
  | computed, [operator, v] => do
    let operator ← operator.asOperator computed
    let v ← v.asValue computed
    pure (.computed operator v)
  | exit, [] => .ok .exit
  | parse, [encode, decode, inner, size] => do
    let encode ← encode.asTranscoder parse
    let decode ← decode.asTranscoder parse
    let inner ← inner.candidate parse
    let size ← size.count parse
    pure (.parse encode decode inner size)
  | _, _ => .error (builder.arityFault arguments.length)

end Builder

/-- A builder with the arguments collected so far. -/
structure Partial where
  builder : Builder
  arguments : List Argument

/-- What applying arguments leads to. -/
inductive Applied where
  /-- Arguments are still missing. -/
  | incomplete (rest : Partial)
  | complete (candidate : Candidate)

namespace Partial

/-- The selector that lacks the remaining argument. -/
def selector (p : Partial) : Selector := .application p.builder p.arguments

/-- The text of what is collected. -/
def text (p : Partial) : String := p.selector.text

/-- The number of arguments still missing. -/
def remaining (p : Partial) : Nat := p.builder.arity - p.arguments.length

/-- Collects one more argument, and does not build. -/
def collect (p : Partial) (a : Argument) : Partial := { p with arguments := p.arguments ++ [a] }

/-- Collects arguments, and builds the schema when none is missing any more. -/
def apply (p : Partial) (more : List Argument) : Except Fault Applied :=
  let arguments := p.arguments ++ more
  if p.builder.arity < arguments.length then .error (p.builder.arityFault arguments.length)
  else if arguments.length < p.builder.arity then .ok (.incomplete { p with arguments })
  else do pure (.complete (← p.builder.build arguments))

end Partial

/-- The builder without arguments. -/
def Builder.start (builder : Builder) : Partial := { builder, arguments := [] }

/-- Applies a builder to arguments. -/
def Builder.call (builder : Builder) (arguments : List Argument) : Except Fault Applied := builder.start.apply arguments

namespace Applied

/-- The text of what is reached. -/
def text : Applied → String
  | incomplete p => p.text
  | complete candidate => candidate.text

/-- Applies further arguments; a complete schema takes none. -/
def andThen (a : Applied) (more : List Argument) : Except Fault Applied :=
  match a with
  | incomplete p => p.apply more
  | complete candidate =>
    if more.isEmpty then .ok (.complete candidate)
    else .error (.invalidArgument "together" (candidate.text ++ " is complete"))

/-- The schema, when no argument is missing. -/
def candidate : Applied → Except Fault Candidate
  | complete candidate => .ok candidate
  | incomplete p =>
    .error (.invalidArgument p.builder.name (toString p.remaining ++ " more arguments required"))

end Applied

/-- The schema that is selected for the value of a sibling field. -/
def Selector.select (selector : Selector) (v : Value) : Except Fault Candidate :=
  match selector with
  | .application builder arguments => do
    let applied ← Partial.apply { builder, arguments } [.value v]
    applied.candidate
  | .function choose => choose v

end WireLayout
