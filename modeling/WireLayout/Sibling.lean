import WireLayout.Elements

/-!
# Sibling fields

Schemas that look at an earlier field of the body around: a dependent field takes its schema from the value of another one, a linked
array has its count there. When a linked array is packed, the true count is written over the bytes of the count field, whatever the
value said.
-/

namespace WireLayout

namespace Sibling

/-- Runs the schema that the value of a sibling field selects. -/
def unpackDepend (Γ : Context) (run : Schema → Unpacking Value) (field : String) (selector : Selector) : Unpacking Value := do
  let v ← Walk.sibling "depend" field
  let selected ← Walk.ofExcept (selector.select v)
  Unpacking.candidate Γ run selected

/-- Writes a value by the schema that the value of a sibling field selects. -/
def packDepend (Γ : Context) (run : Schema → Value → Packing Unit) (field : String) (selector : Selector) (v : Value) :
    Packing Unit := do
  let dependent ← Walk.sibling "depend" field
  let selected ← Walk.ofExcept (selector.select dependent)
  Packing.candidate Γ run selected v

/-- Reads as many elements as a sibling field says. -/
def unpackLink (Γ : Context) (run : Schema → Unpacking Value) (field : String) (item : Candidate) : Unpacking Value := do
  let v ← Walk.sibling "link" field
  let n ← Count.ofValue v
  Elements.unpack Γ run item (some n)

/-- The bytes of a count, as the schema of the count field writes it: a number stores it exactly. -/
def countBytes (Γ : Context) (run : Schema → Value → Packing Unit) (field : Candidate) (n : Nat) : Packing Bytes := do
  match ← Walk.resolve Γ field with
  | .number kind => Packing.collect (Packing.onOutput fun out => kind.packCount Γ.options.byteOrder n out)
  | schema => Packing.collect (run schema (.ofCount n))

/-- Writes elements, and their count over the sibling field. -/
def packLink (Γ : Context) (run : Schema → Value → Packing Unit) (field : String) (item : Candidate) (v : Value) :
    Packing Unit := do
  let items ← Elements.ofValue v
  let scope ← Walk.requireScope "link"
  match scope.fieldSchema? field, scope.offset? field with
  | some counter, some offset => do
    let count ← countBytes Γ run counter items.length
    Packing.onOutput fun out => .ok (out.patch offset count)
    Elements.pack Γ run item items items.length
  | _, _ => Walk.fail (.undefinedDependency field)

end Sibling

end WireLayout
