import WireLayout.Proofs.Patching
import WireLayout.Proofs.Approximation
import WireLayout.Proofs.Relocation

/-!
# Bodies are free of context

What an object or a union writes and reads depends on its own value and bytes and on nothing around: neither on the output that
stands in front, nor on the position in the input, nor on the body that encloses it (`body_contextFree`). So the elements of an
array of bodies can be written one by one and put together.
-/

namespace WireLayout

/-- Several runs of bytes one after another. -/
def Bytes.concat (parts : List Bytes) : Bytes := parts.foldr (· ++ ·) #[]

/-- The same outcome, but for the offset at which bytes are missing. -/
inductive Stop.SameUpToOffset : Stop → Stop → Prop where
  | fault {fault fault' : Fault} (h : fault.SameUpToOffset fault') : SameUpToOffset (.fault fault) (.fault fault')
  | exhausted : SameUpToOffset .exhausted .exhausted

/-- Whether a schema opens a body. -/
def Schema.isBody : Schema → Bool
  | object _ | union _ _ => true
  | _ => false

namespace Registry

variable {r : Registry} {c c' : Candidate}

/-- Candidates that stand for the same are packed the same. -/
theorem packWith_congr (same : r.resolve c = r.resolve c') (v : Value) (options : Options) :
    r.packWith c v options = r.packWith c' v options := by
  simp only [packWith, Codec.packCandidate, Packing.candidate, Walk.bind_apply, Walk.resolve, same]

theorem unpackWith_congr (same : r.resolve c = r.resolve c') (data : Bytes) (options : Options) :
    r.unpackWith c data options = r.unpackWith c' data options := by
  simp only [unpackWith, Codec.unpackCandidate, Unpacking.candidate, Walk.bind_apply, Walk.resolve, same]

/-- What stands for no schema is not packed. -/
theorem packWith_of_resolve_error {stop : Stop} (h : r.resolve c = .error stop) (v : Value) (options : Options) :
    r.packWith c v options = .error stop := by
  simp only [packWith, Codec.packCandidate, Packing.candidate, Walk.bind_apply, Walk.resolve, h]
  rfl

theorem unpackWith_of_resolve_error {stop : Stop} (h : r.resolve c = .error stop) (data : Bytes) (options : Options) :
    r.unpackWith c data options = .error stop := by
  simp only [unpackWith, Codec.unpackCandidate, Unpacking.candidate, Walk.bind_apply, Walk.resolve, h]
  rfl

end Registry

namespace Codec

open Packing

variable {Γ : Context}

/-- The bytes of a value by themselves, outside every body. -/
def packed (Γ : Context) (depth : Nat) (schema : Schema) (v : Value) : Except Stop Bytes :=
  (pack Γ depth schema v ⟨#[], none⟩).map fun result => result.2.medium

/-- A value has bytes by itself when it is written to an output that is empty. -/
theorem packed_eq_ok {depth : Nat} {schema : Schema} {v : Value} {bytes : Bytes} :
    packed Γ depth schema v = .ok bytes ↔ ∃ scope, pack Γ depth schema v ⟨#[], none⟩ = .ok ((), ⟨bytes, scope⟩) := by
  rw [packed]
  cases pack Γ depth schema v ⟨#[], none⟩ with
  | error stop =>
    constructor
    · rintro ⟨⟩
    · rintro ⟨_, ⟨⟩⟩
  | ok result =>
    constructor
    · rintro ⟨⟩
      exact ⟨result.2.scope, rfl⟩
    · rintro ⟨_, ⟨⟩⟩
      rfl

/-- A registry packs a schema by itself, within its own depth. -/
theorem packWith_eq_packed (r : Registry) (options : Options) (schema : Schema) (v : Value) :
    r.packWith (.schema schema) v options = packed ⟨r, options⟩ r.limits.depth schema v := by
  have hcandidate : packCandidate ⟨r, options⟩ (.schema schema) v = pack ⟨r, options⟩ r.limits.depth schema v :=
    Walk.resolve_bind_ok rfl _
  rw [Registry.packWith, hcandidate, packed]
  cases pack ⟨r, options⟩ r.limits.depth schema v ⟨#[], none⟩ <;> rfl

/-- So it packs what a candidate stands for. -/
theorem packWith_of_resolve {r : Registry} {c : Candidate} {schema : Schema} (h : r.resolve c = .ok schema) (v : Value)
    (options : Options) : r.packWith c v options = packed ⟨r, options⟩ r.limits.depth schema v := by
  have same : r.resolve c = r.resolve (.schema schema) := h
  rw [Registry.packWith_congr same, packWith_eq_packed]

/-- What surrounds a schema makes no difference to it, and is left as it was. -/
structure ContextFree (Γ : Context) (depth : Nat) (schema : Schema) : Prop where
  /-- Behind other output, inside another body, the bytes are those of the value by itself. -/
  packs : ∀ v out scope, pack Γ depth schema v ⟨out, scope⟩ =
    (packed Γ depth schema v).map fun bytes => ((), ⟨out ++ bytes, scope⟩)
  /-- At any position, inside another body, the value and the number of bytes are those of the rest of the input by itself. -/
  unpacks : ∀ data p scope, p ≤ data.size →
    match unpack Γ depth schema ⟨Cursor.ofBytes (data.extract p data.size), none⟩ with
    | .ok (v, alone) => unpack Γ depth schema ⟨⟨data, p⟩, scope⟩ = .ok (v, ⟨⟨data, p + alone.medium.position⟩, scope⟩)
    | .error stop => ∃ stop', unpack Γ depth schema ⟨⟨data, p⟩, scope⟩ = .error stop' ∧ stop'.SameUpToOffset stop
  /-- An array is the bytes of its elements, each by itself, one after another. -/
  packsEach : ∀ item values out scope, Γ.registry.resolve item = .ok schema →
    pack Γ (depth + 1) (.array item .auto) (.list values) ⟨out, scope⟩ =
      (values.mapM (packed Γ depth schema)).map fun parts => ((), ⟨out ++ Bytes.concat parts, scope⟩)

/-- Elements that are written without regard to what is in front are written one after another. -/
theorem packEach_contextFree {step : Value → Packing Unit} {alone : Value → Except Stop Bytes} {scope : Option Scope}
    (hstep : ∀ v out, step v ⟨out, scope⟩ = (alone v).map fun bytes => ((), ⟨out ++ bytes, scope⟩)) (values : List Value)
    (out : Bytes) :
    Elements.packEach step values.length values ⟨out, scope⟩ =
      (values.mapM alone).map fun parts => ((), ⟨out ++ Bytes.concat parts, scope⟩) := by
  induction values generalizing out with
  | nil =>
    show Except.ok ((), WalkState.mk out scope) = Except.ok ((), ⟨out ++ #[], scope⟩)
    rw [Array.append_empty]
  | cons v rest ih =>
    rw [List.length_cons, Elements.packEach_succ, Walk.bind_apply, List.mapM_cons]
    simp only [List.head?_cons, Option.getD_some, List.tail_cons, hstep]
    cases alone v with
    | error stop => rfl
    | ok bytes =>
      show Elements.packEach step rest.length rest ⟨out ++ bytes, scope⟩ = _
      rw [ih]
      cases rest.mapM alone with
      | error stop => rfl
      | ok parts =>
        show Except.ok ((), WalkState.mk (out ++ bytes ++ Bytes.concat parts) scope) =
          Except.ok ((), ⟨out ++ (bytes ++ Bytes.concat parts), scope⟩)
        rw [Array.append_assoc]

section

variable {depth : Nat} {schema : Schema}

/-- Behind other output, outside every body, a schema writes the bytes that it writes by itself. -/
theorem pack_behind (hsite : Site.Throughout Γ.registry .any (fun site => site.schema.isCustom = false ∧ site.LinksInside) (.top schema))
    (v : Value) (out : Bytes) :
    pack Γ depth schema v ⟨out, none⟩ = (packed Γ depth schema v).map fun bytes => ((), ⟨out ++ bytes, none⟩) := by
  have hmoved : Movable out out.size none (pack Γ depth schema v) := pack_movable depth hsite v out out.size (Or.inl (Or.inl rfl))
  have halone := hmoved.moved ⟨#[], none⟩ rfl
  have hkeeps := hmoved.keeps ⟨#[], none⟩
  simp only [WalkState.behind, Array.append_empty, Option.map_none] at halone
  rw [halone, packed]
  cases hrun : pack Γ depth schema v ⟨#[], none⟩ with
  | error stop => rfl
  | ok result =>
    have hnone : result.2.scope = none := Option.map_eq_none_iff.mp (hkeeps result.1 result.2 rfl hrun)
    simp only [Except.map, hnone, Option.map_none]

/-- Behind other output, inside another body, a body writes the bytes that it writes by itself. -/
theorem pack_body (hbody : schema.isBody = true)
    (hsite : Site.Throughout Γ.registry .any (fun site => site.schema.isCustom = false ∧ site.LinksInside) (.top schema)) (v : Value)
    (out : Bytes) (scope : Option Scope) :
    pack Γ depth schema v ⟨out, scope⟩ = (packed Γ depth schema v).map fun bytes => ((), ⟨out ++ bytes, scope⟩) := by
  have hscope : Walk.Scopeless (pack Γ depth schema v) := by
    cases depth with
    | zero => exact fun _ _ => rfl
    | succ depth =>
      cases schema with
      | object layout => exact Body.scopeless_packObject _ layout v
      | union layout size => exact Body.scopeless_packUnion _ layout size v
      | _ => cases hbody
  rw [hscope out scope, pack_behind hsite]
  cases packed Γ depth schema v <;> rfl

/-- At any position, inside another body, a body reads what it reads from the rest of the input by itself. -/
theorem unpack_body (hbody : schema.isBody = true)
    (hsite : Site.Throughout Γ.registry .any (fun site => site.schema.isCustom = false) (.top schema)) (data : Bytes) (p : Nat)
    (scope : Option Scope) (hp : p ≤ data.size) :
    match unpack Γ depth schema ⟨Cursor.ofBytes (data.extract p data.size), none⟩ with
    | .ok (v, alone) => unpack Γ depth schema ⟨⟨data, p⟩, scope⟩ = .ok (v, ⟨⟨data, p + alone.medium.position⟩, scope⟩)
    | .error stop => ∃ stop', unpack Γ depth schema ⟨⟨data, p⟩, scope⟩ = .error stop' ∧ stop'.SameUpToOffset stop := by
  have hscope : Walk.Scopeless (unpack Γ depth schema) := by
    cases depth with
    | zero => exact fun _ _ => rfl
    | succ depth =>
      cases schema with
      | object layout => exact Body.scopeless_unpackObject _ layout
      | union layout size => exact Body.scopeless_unpackUnion _ layout size
      | _ => cases hbody
  obtain ⟨hforward, hrelocatable⟩ := unpack_forward_relocatable (Γ := Γ) depth hsite
  have hfront : (data.extract 0 p).size = p := by
    rw [Array.size_extract]
    omega
  have hwhole : data.extract 0 p ++ data.extract p data.size = data := by
    rw [Array.extract_append_extract, Nat.zero_min, Nat.max_eq_right hp, Array.extract_size]
  have hbehind : (Cursor.ofBytes (data.extract p data.size)).behind (data.extract 0 p) = ⟨data, p⟩ := by
    rw [Cursor.ofBytes, Cursor.behind_mk, hfront, hwhole]
    rfl
  have hin : (Cursor.ofBytes (data.extract p data.size)).InBounds := Nat.zero_le _
  have hmoved := hrelocatable (data.extract 0 p) _ none hin
  rw [hbehind] at hmoved
  rw [hscope ⟨data, p⟩ scope]
  cases halone : unpack Γ depth schema ⟨Cursor.ofBytes (data.extract p data.size), none⟩ with
  | error stop =>
    rw [Site.top, halone] at hmoved
    generalize unpack Γ depth schema ⟨⟨data, p⟩, none⟩ = moved at hmoved
    cases hmoved with
    | fault hfault => exact ⟨_, rfl, .fault hfault⟩
    | exhausted => exact ⟨_, rfl, .exhausted⟩
  | ok result =>
    obtain ⟨v, c, alone⟩ := result
    obtain ⟨hdata, -, -⟩ := hforward _ none v _ hin halone
    rw [Site.top, halone] at hmoved
    generalize unpack Γ depth schema ⟨⟨data, p⟩, none⟩ = moved at hmoved
    have hcursor : c.behind (data.extract 0 p) = ⟨data, p + c.position⟩ := by
      rw [Cursor.behind, hfront, hdata]
      exact congrArg (Cursor.mk · _) hwhole
    cases hmoved
    exact congrArg (fun cursor => Except.ok (v, WalkState.mk cursor scope)) hcursor

theorem contextFree_of_body (hbody : schema.isBody = true)
    (hsite : Site.Throughout Γ.registry .any (fun site => site.schema.isCustom = false ∧ site.LinksInside) (.top schema))
    (depth : Nat) : ContextFree Γ depth schema where
  packs v out scope := pack_body hbody hsite v out scope
  unpacks data p scope hp := unpack_body hbody (hsite.mono fun _ h => h.1) data p scope hp
  packsEach item values out scope hitem := by
    have helements : pack Γ (depth + 1) (.array item .auto) (.list values) ⟨out, scope⟩ =
        Elements.pack Γ (pack Γ depth) item values values.length ⟨out, scope⟩ := rfl
    have hother : Elements.pack Γ (pack Γ depth) item values values.length =
        Elements.packEach (pack Γ depth schema) values.length values := by
      rw [Elements.pack, Walk.resolve_bind_ok hitem]
      cases schema with
      | number _ => cases hbody
      | _ => rfl
    rw [helements, hother]
    exact packEach_contextFree (fun v out => pack_body hbody hsite v out scope) values out

end

/-- Less depth gives up, or gives the same bytes. -/
theorem packed_of_le {depth depth' : Nat} (h : depth ≤ depth') (schema : Schema) (v : Value) :
    packed Γ depth schema v = .error .exhausted ∨ packed Γ depth schema v = packed Γ depth' schema v := by
  rw [packed, packed]
  rcases pack_approximates_of_le (Γ := Γ) h schema v ⟨#[], none⟩ with hs | hs
  · rw [hs]
    exact Or.inl rfl
  · rw [hs]
    exact Or.inr rfl

theorem mapM_packed_of_le {depth depth' : Nat} (h : depth ≤ depth') (schema : Schema) (values : List Value) :
    values.mapM (packed Γ depth schema) = .error .exhausted ∨
      values.mapM (packed Γ depth schema) = values.mapM (packed Γ depth' schema) := by
  induction values with
  | nil => exact Or.inr rfl
  | cons v rest ih =>
    rw [List.mapM_cons, List.mapM_cons]
    rcases packed_of_le (Γ := Γ) h schema v with hv | hv
    · rw [hv]
      exact Or.inl rfl
    · rw [← hv]
      cases packed Γ depth schema v with
      | error stop => exact Or.inr rfl
      | ok bytes =>
        rcases ih with hrest | hrest
        · rw [hrest]
          exact Or.inl rfl
        · rw [hrest]
          exact Or.inr rfl

/-- The body of an object or a union is free of context at every depth, when no kind defined by the user runs inside and no linked
array inside a transformed region names a field outside that region. So a registry, which packs a body by itself, packs an array of
bodies as what it packs for each of them, unless it gives up. -/
theorem body_contextFree {schema : Schema} (hbody : schema.isBody = true)
    (hsite : Site.Throughout Γ.registry .any (fun site => site.schema.isCustom = false ∧ site.LinksInside) (.top schema)) :
    (∀ depth, ContextFree Γ depth schema) ∧
      (∀ v, Γ.registry.packWith (.schema schema) v Γ.options = packed Γ Γ.registry.limits.depth schema v) ∧
      ∀ values, Γ.registry.packWith (.array (.schema schema) .auto) (.list values) Γ.options = .error .exhausted ∨
        Γ.registry.packWith (.array (.schema schema) .auto) (.list values) Γ.options =
          (values.mapM fun v => Γ.registry.packWith (.schema schema) v Γ.options).map Bytes.concat := by
  have hfree : ∀ depth, ContextFree Γ depth schema := contextFree_of_body hbody hsite
  have halone : ∀ schema v, Γ.registry.packWith (.schema schema) v Γ.options = packed Γ Γ.registry.limits.depth schema v :=
    packWith_eq_packed Γ.registry Γ.options
  refine ⟨hfree, halone schema, ?_⟩
  intro values
  simp only [Candidate.array, halone]
  cases hdepth : Γ.registry.limits.depth with
  | zero => exact Or.inl rfl
  | succ depth =>
    have harray := (hfree depth).packsEach (.schema schema) values #[] none rfl
    rw [packed, harray]
    rcases mapM_packed_of_le (Γ := Γ) (Nat.le_succ depth) schema values with hgiven | hsame
    · rw [hgiven]
      exact Or.inl rfl
    · rw [← hsame]
      cases values.mapM (packed Γ depth schema) with
      | error stop => exact Or.inr rfl
      | ok parts => exact Or.inr (congrArg Except.ok (Array.empty_append ..))

/-- A packet is a body whose linked array lies in no transformed region. -/
theorem body_contextFree_packet : ContextFree Packet.context 4 Packet.schema := by
  have hsite : Site.Throughout Packet.context.registry .any (fun site => site.schema.isCustom = false ∧ site.LinksInside)
      (.top Packet.schema) := by
    refine Packet.throughout ⟨rfl, nofun⟩ (fun _ => ⟨rfl, nofun⟩) (fun _ => ⟨rfl, nofun⟩) ⟨rfl, ?_⟩ fun _ => ⟨rfl, nofun⟩
    intro field item place _ _ hparsed
    cases hparsed
  exact (body_contextFree rfl hsite).1 4

end Codec

end WireLayout
