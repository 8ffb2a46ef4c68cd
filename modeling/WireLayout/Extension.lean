import WireLayout.Walk

/-!
# Extensions at work

Runs the reading or writing program of an extension, request by request, as part of the walk around it.
-/

namespace WireLayout

namespace Extension

/-- What there is around, as far as it does not depend on the direction. -/
def viewOf (Γ : Context) (scope : Option Scope) (position remaining length : Nat) : View where
  position
  remaining
  length
  options := Γ.options
  hasName := Γ.registry.contains
  isScoped := scope.isSome
  isExited := (scope.map (·.isExited)).getD false
  field? key := scope.bind (·.field? key)
  fieldText? key := scope.bind fun s => (s.fieldSchema? key).map (·.text)
  offset? key := scope.bind (·.offset? key)

/-- What a reading program sees. -/
def readView (Γ : Context) : Unpacking View := fun s =>
  .ok (viewOf Γ s.scope s.medium.position s.medium.remaining s.medium.data.size, s)

/-- What a writing program sees. -/
def writeView (Γ : Context) : Packing View := fun s =>
  .ok (viewOf Γ s.scope s.medium.size 0 s.medium.size, s)

/-- Runs a reading program. -/
def unpack (Γ : Context) (run : Schema → Unpacking Value) : Reader → Unpacking Value
  | .done v => pure v
  | .fail fault => Walk.fail fault
  | .take n next => do
    let bytes ← Unpacking.take n
    unpack Γ run (next bytes)
  | .seek position next => do
    Walk.onMedium fun c => do pure ((), ← c.seek position)
    unpack Γ run next
  | .inspect next => do
    let view ← readView Γ
    unpack Γ run (next view)
  | .unpack candidate next => do
    let v ← Unpacking.candidate Γ run candidate
    unpack Γ run (next v)
  | .exit kind next => do
    Walk.exitScope kind
    unpack Γ run next

/-- Runs a writing program. -/
def pack (Γ : Context) (run : Schema → Value → Packing Unit) : Writer → Packing Unit
  | .done => pure ()
  | .fail fault => Walk.fail fault
  | .emit bytes next => do
    Packing.emit bytes
    pack Γ run next
  | .inspect next => do
    let view ← writeView Γ
    pack Γ run (next view)
  | .pack candidate v next => do
    Packing.candidate Γ run candidate v
    pack Γ run next
  | .exit kind next => do
    Walk.exitScope kind
    pack Γ run next

end Extension

end WireLayout
