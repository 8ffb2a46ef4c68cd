import WireLayout.Proofs.Placement

/-!
# Patching behind other bytes

A linked array writes its count over bytes that are written already, at an offset that the body around has noted. Where the output
and the offsets begin at the same place this hits the same bytes (`Movable.link`). In a transformed region they do not, so a linked
array there must not name a field outside it (`Site.LinksInside`). With that every schema is written the same behind other bytes
(`pack_movable`).
-/

namespace WireLayout

namespace Packing.Movable

variable {α : Type} {Γ : Context} {run : Schema → Value → Packing Unit} {front : Bytes} {k : Nat} {body : Option Layout}

/-! ## Linked arrays -/

/-- The bytes of a count do not depend on offsets, when those of integers do not. -/
theorem countBytes {counter : Candidate} (n : Nat)
    (hrun : ∀ schema m, Γ.registry.resolve counter = .ok schema → Movable #[] k body (run schema (.int m))) :
    Movable front k body (Sibling.countBytes Γ run counter n) := by
  refine (compositional front k body).resolve ?_
  intro schema hc
  split
  · exact collect (onOutput (Number.written_packCount _ _ n))
  · exact collect (hrun schema _ hc)

/-- A linked array overwrites the same count, where offsets are moved by as much as stands in front. -/
theorem link {layout : Layout} {field : String} {item : Candidate}
    (hcount : ∀ counter schema m, layout.get? field = some counter → Γ.registry.resolve counter = .ok schema →
      Movable #[] front.size (some layout) (run schema (.int m)))
    (hrun : ∀ schema v, Γ.registry.resolve item = .ok schema → Movable front front.size (some layout) (run schema v))
    (v : Value) : Movable front front.size (some layout) (Sibling.packLink Γ run field item v) := by
  refine ((compositional _ _ _).elementsOf v).bind fun items => ⟨fun s hs => ?_, fun s a s' hs h => ?_⟩
  · obtain ⟨out, scope⟩ := s
    cases scope with
    | none => rfl
    | some scope =>
      have hlayout : scope.layout = layout := Option.some.inj hs
      rw [Walk.bind_apply, Walk.bind_apply]
      simp only [WalkState.behind, Option.map_some, Walk.requireScope, Scope.fieldSchema?_shift, Scope.offset?_shift]
      cases hcounter : scope.fieldSchema? field with
      | none => rfl
      | some counter =>
        cases scope.offset? field with
        | none => rfl
        | some offset =>
          have hbytes : Movable front front.size (some layout) (Sibling.countBytes Γ run counter items.length) := by
            refine countBytes _ fun schema m hc => hcount counter schema m ?_ hc
            rw [← hlayout]
            exact hcounter
          have hmoved := hbytes.moved ⟨out, some scope⟩ hs
          simp only [WalkState.behind, Option.map_some] at hmoved
          simp only [Option.map_some]
          rw [Walk.bind_apply, Walk.bind_apply, hmoved]
          cases hwritten : Sibling.countBytes Γ run counter items.length ⟨out, some scope⟩ with
          | error stop => rfl
          | ok result =>
            obtain ⟨count, out', scope'⟩ := result
            have hbody := hbytes.keeps _ _ _ hs hwritten
            show Elements.pack Γ run item items items.length
                ⟨(front ++ out').patch (front.size + offset) count, scope'.map (·.shift front.size)⟩ =
              (Elements.pack Γ run item items items.length ⟨out'.patch offset count, scope'⟩).map _
            rw [Bytes.patch_append]
            exact ((compositional _ _ _).elements hrun items items.length).moved ⟨out'.patch offset count, scope'⟩ hbody
  · obtain ⟨scope, s₁, h₁, h₂⟩ := Walk.bind_eq_ok.mp h
    have hsame : s₁ = s ∧ scope.layout = layout := by
      obtain ⟨out, around⟩ := s
      cases around with
      | none => cases h₁
      | some around =>
        cases h₁
        exact ⟨rfl, Option.some.inj hs⟩
    obtain ⟨rfl, hlayout⟩ := hsame
    cases hcounter : scope.fieldSchema? field with
    | none =>
      simp only [hcounter] at h₂
      cases h₂
    | some counter =>
      cases hoffset : scope.offset? field with
      | none =>
        simp only [hcounter, hoffset] at h₂
        cases h₂
      | some offset =>
        simp only [hcounter, hoffset] at h₂
        have hbytes : Movable front front.size (some layout) (Sibling.countBytes Γ run counter items.length) := by
          refine countBytes _ fun schema m hc => hcount counter schema m ?_ hc
          rw [← hlayout]
          exact hcounter
        obtain ⟨count, s₂, h₂, h₃⟩ := Walk.bind_eq_ok.mp h₂
        obtain ⟨⟨⟩, s₃, h₃, h₄⟩ := Walk.bind_eq_ok.mp h₃
        have hbody := hbytes.keeps _ _ _ hs h₂
        cases h₃
        exact ((compositional _ _ _).elements hrun items items.length).keeps ⟨s₂.medium.patch offset count, s₂.scope⟩ _ _ hbody h₄

/-- A linked array that finds no such field fails wherever it stands. -/
theorem link_missing {field : String} {item : Candidate} (hbody : ∀ layout, body = some layout → layout.get? field = none)
    (v : Value) : Movable front k body (Sibling.packLink Γ run field item v) := by
  refine ((compositional _ _ _).elementsOf v).bind fun items => ⟨fun s hs => ?_, fun s a s' hs h => ?_⟩
  · obtain ⟨out, scope⟩ := s
    cases scope with
    | none => rfl
    | some scope =>
      have hmissing : scope.fieldSchema? field = none := hbody scope.layout hs.symm
      rw [Walk.bind_apply, Walk.bind_apply]
      simp only [WalkState.behind, Option.map_some, Walk.requireScope, Scope.fieldSchema?_shift, hmissing]
      rfl
  · obtain ⟨out, scope⟩ := s
    cases scope with
    | none => cases h
    | some scope =>
      have hmissing : scope.fieldSchema? field = none := hbody scope.layout hs.symm
      rw [Walk.bind_apply] at h
      simp only [Walk.requireScope, hmissing] at h
      cases h

/-- What is no list has no elements to write. -/
theorem array_int (item : Candidate) (count : Count) (n : Int64) :
    Movable front k body (Elements.packArray Γ run item count (.int n)) := by
  have heq : Elements.packArray Γ run item count (.int n) = fun _ => .error (.fault (.typeMismatch "array" "integer")) := rfl
  rw [heq]
  exact (compositional front k body).stop _

theorem link_int (field : String) (item : Candidate) (n : Int64) :
    Movable front k body (Sibling.packLink Γ run field item (.int n)) := by
  have heq : Sibling.packLink Γ run field item (.int n) = fun _ => .error (.fault (.typeMismatch "array" "integer")) := rfl
  rw [heq]
  exact (compositional front k body).stop _

end Packing.Movable

/-! ## Every schema -/

/-- A linked array inside a transformed region does not name a field of the body around the region. -/
def Site.LinksInside (site : Site) : Prop :=
  ∀ field item place, site.schema = .link field item → site.place = some place → site.isParsed = true →
    place.layout.get? field = none

namespace Codec

open Packing

variable {Γ : Context} {site : Site}

/-- Writing does not depend on where the output and the offsets of the body around begin, as long as both begin at the same place.
Inside a transformed region only the offsets have moved, and nothing there looks at them; an integer is written without them. -/
theorem pack_movable (depth : Nat)
    (hsite : Site.Throughout Γ.registry .any (fun site => site.schema.isCustom = false ∧ site.LinksInside) site) (v : Value)
    (front : Bytes) (k : Nat) (hk : (k = front.size ∨ site.isParsed = true) ∨ ∃ n, v = .int n) :
    Movable front k (site.place.map (·.layout)) (pack Γ depth site.schema v) := by
  induction depth generalizing site v front k with
  | zero => exact (Movable.compositional front k _).stop _
  | succ depth ih =>
    obtain ⟨schema, place, isParsed⟩ := site
    have h := Movable.compositional front k (place.map (·.layout))
    cases schema with
    | number kind => exact h.number kind v
    | array item count =>
      rcases hk with hk | ⟨n, rfl⟩
      · exact h.array (fun schema v hc => ih (hsite.of_runs (.item hc)) v front k (Or.inl hk)) count v
      · exact Movable.array_int item count n
    | string size => exact h.text size v
    | cstring size => exact h.terminatedText size v
    | object layout =>
      refine Movable.object (fun before key c after v hsplit => (Movable.compositional _ _ _).candidate fun schema hc => ?_) v
      exact ih (hsite.of_runs (.field hsplit hc)) v front front.size (Or.inl (Or.inl rfl))
    | union layout size => exact h.union _ layout size v
    | enums names base => exact h.enumeration names base v
    | depend field selector =>
      refine (Movable.sibling "depend" field).bind ?_
      intro dependent
      cases hselect : selector.select dependent with
      | error fault => exact h.stop _
      | ok c => exact h.candidate fun schema hc => ih (hsite.of_runs (.selected trivial hselect hc)) v front k hk
    | link field item =>
      rcases hk with (rfl | hparsed) | ⟨n, rfl⟩
      · cases place with
        | none => exact Movable.link_missing (by simp) v
        | some place =>
          refine Movable.link ?_ ?_ v
          · intro counter schema m hfound hc
            exact ih (hsite.of_runs (.counter hfound hc)) (.int m) #[] front.size (Or.inr ⟨m, rfl⟩)
          · intro schema v hc
            exact ih (hsite.of_runs (.linked hc)) v front front.size (Or.inl (Or.inl rfl))
      · refine Movable.link_missing ?_ v
        intro layout hlayout
        obtain ⟨place, rfl, rfl⟩ := Option.map_eq_some_iff.mp hlayout
        exact hsite.here.2 field item place rfl rfl hparsed
      · exact Movable.link_int field item n
    | computed operator w => exact h.pure ()
    | exit => exact h.exitScope "exit"
    | parse encode decode inner size =>
      have hinner : ∀ schema, Γ.registry.resolve inner = .ok schema →
          Movable #[] k (place.map (·.layout)) (pack Γ depth schema v) :=
        fun schema hc => ih (hsite.of_runs (.inner hc)) v #[] k (Or.inl (Or.inr rfl))
      refine (Movable.collect ((Movable.compositional _ _ _).candidate hinner)).bind fun plain => (h.ofExcept _).bind fun encoded => ?_
      exact h.region size encoded
    | custom extension => exact absurd hsite.here.1 (by simp [Schema.isCustom])

end Codec

end WireLayout
