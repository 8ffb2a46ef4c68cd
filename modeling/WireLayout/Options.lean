import WireLayout.Fault
import WireLayout.Value
import Std.Data.TreeMap

/-!
# Options

What every schema sees besides its input: the byte order of numbers, the encoding of text, and free-form flags for extensions.
`Options.merged` lays a caller's overrides over them; what an override leaves unset keeps its value.
-/

namespace WireLayout

/-- Options of one pack or unpack run. -/
structure Options where
  byteOrder : ByteOrder
  encoding : Encoding
  flags : Std.TreeMap String Value

/-- Options as a caller gives them, in part and with the encoding by name. -/
structure Overrides where
  byteOrder : Option ByteOrder
  encoding : Option String
  flags : List (String × Value)

namespace Encoding

/-- The encoding of a name, or a fault that shows the name in lower case. -/
def ofName (name : String) : Except Fault Encoding :=
  match ofName? name with
  | some encoding => .ok encoding
  | none => .error (.invalidArgument "encoding" ("unsupported `" ++ normalName name ++ "`"))

/-- The bytes of a text. -/
def encode (encoding : Encoding) (text : String) : Except Fault Bytes :=
  match encoding.encode? text with
  | some bytes => .ok bytes
  | none => .error (.invalidEncoding encoding)

/-- The text that bytes encode. -/
def decode (encoding : Encoding) (bytes : Bytes) : Except Fault String :=
  match encoding.decode? bytes with
  | some text => .ok text
  | none => .error (.invalidEncoding encoding)

end Encoding

namespace Options

/-- Least significant byte first, UTF-8, no flags. -/
def littleEndian : Options := { byteOrder := .little, encoding := .utf8, flags := ∅ }

/-- Most significant byte first, UTF-8, no flags. -/
def bigEndian : Options := { littleEndian with byteOrder := .big }

instance : Inhabited Options := ⟨littleEndian⟩

/-- Sets the byte order. -/
def setByteOrder (o : Options) (byteOrder : ByteOrder) : Options := { o with byteOrder }

/-- Sets the text encoding. -/
def setEncoding (o : Options) (encoding : Encoding) : Options := { o with encoding }

/-- Sets one flag. -/
def setFlag (o : Options) (name : String) (value : Value) : Options := { o with flags := o.flags.insert name value }

/-- The value of a flag. -/
def flag? (o : Options) (name : String) : Option Value := o.flags[name]?

/-- Lays overrides over the options: what is unset stays, and flags are set one by one. -/
def merged (o : Options) (overrides : Overrides) : Except Fault Options := do
  let encoding ← match overrides.encoding with
    | some name => Encoding.ofName name
    | none => pure o.encoding
  let o := { o with byteOrder := overrides.byteOrder.getD o.byteOrder, encoding }
  pure (overrides.flags.foldl (fun o flag => o.setFlag flag.1 flag.2) o)

end Options

end WireLayout
