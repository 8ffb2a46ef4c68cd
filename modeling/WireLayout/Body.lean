import WireLayout.Walk

/-!
# Bodies

Objects and unions open a scope, in which later fields see earlier ones, and run their fields in layout order. After the body was
left, the remaining fields are not run: they read as null and write nothing. The fields of an object follow one another; those of a
union all start at the same place of a region, and later ones are written over earlier ones.
-/

namespace WireLayout

namespace Body

/-- Named fields are packed from a record, positional ones from a list; null packs every field as null. -/
def checkShape (layout : Layout) (v : Value) : Except Fault Unit :=
  match layout, v with
  | _, .null | .named _, .record _ | .positional _, .list _ => .ok ()
  | .named _, _ => .error (.typeMismatch "object" v.typeName)
  | .positional _, _ => .error (.typeMismatch "array" v.typeName)

/-- Reads fields one after another, and gives the scope behind them. -/
def unpackFields (run : Candidate → Unpacking Value) : Keyed Candidate → Scope → Unpacking Scope
  | [], scope => pure scope
  | (key, field) :: rest, scope =>
    if scope.isExited then unpackFields run rest (scope.push key .null)
    else do
      let (v, scope) ← Walk.within scope (run field)
      unpackFields run rest (scope.push key v)

/-- Writes fields one after another. Each field's start is noted in the scope. -/
def packFields (run : Candidate → Value → Packing Unit) (v : Value) : Keyed Candidate → Scope → Packing Unit
  | [], _ => pure ()
  | (key, field) :: rest, scope =>
    if scope.isExited then pure ()
    else do
      let start ← Packing.position
      let ((), scope) ← Walk.within (scope.mark key start) (run field ((v.get? key).getD .null))
      packFields run v rest scope

/-- Reads an object. -/
def unpackObject (run : Candidate → Unpacking Value) (layout : Layout) : Unpacking Value := do
  let scope ← unpackFields run layout.entries (.reading layout)
  return scope.value

/-- Writes an object. -/
def packObject (run : Candidate → Value → Packing Unit) (layout : Layout) (v : Value) : Packing Unit := do
  Walk.ofExcept (checkShape layout v)
  packFields run v layout.entries (.writing layout v)

/-- Reads a union: every field reads from the start of the region, and the input moves past the region once. -/
def unpackUnion (run : Candidate → Unpacking Value) (layout : Layout) (size : Nat) : Unpacking Value := do
  let window ← Unpacking.take size
  let readField (field : Candidate) : Unpacking Value := do
    let (v, _) ← Walk.aside (Cursor.ofBytes window) (run field)
    return v
  let scope ← unpackFields readField layout.entries (.reading layout)
  return scope.value

/-- Writes bytes over the start of a region of bytes; what does not fit is dropped. -/
def overlay (region content : Bytes) : Bytes := region.overwrite 0 content.toList

/-- Writes the fields that the value has into a region, later ones over earlier ones. -/
def overlayFields (run : Candidate → Value → Packing Unit) (v : Value) :
    Keyed Candidate → Scope → (region : Bytes) → Packing Bytes
  | [], _, region => pure region
  | (key, field) :: rest, scope, region =>
    if scope.isExited then pure region
    else
      match v.get? key with
      | none => overlayFields run v rest scope region
      | some content => do
        let (written, scope) ← Walk.within scope (Packing.collect (run field content))
        overlayFields run v rest scope (overlay region written)

/-- Writes a union: a region of zeros with the fields laid over it. -/
def packUnion (run : Candidate → Value → Packing Unit) (layout : Layout) (size : Nat) (v : Value) : Packing Unit := do
  Walk.ofExcept (checkShape layout v)
  let region ← overlayFields run v layout.entries (.writing layout v) (Bytes.zeros size)
  Packing.emit region

end Body

end WireLayout
