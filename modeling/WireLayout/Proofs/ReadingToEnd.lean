import WireLayout.Proofs.Blocks
import WireLayout.Proofs.Relocation

/-!
# Reading elements to the end

An array without a count reads elements as long as there are bytes. `Elements.Reads` is a run of elements that all move forward, with the
places at which they are read, and `Elements.Ends` says how such a run ends: nothing is left to read an element from, the next one takes
no byte and is dropped, or it fails. Every place has such a run to the end (`exists_reads`), because reading only moves forward, and the
array is that run, whether it is made of numbers or of anything else (`Reads.unpack`). Hence `unpack_toEnd`: reading ends after at most as many
elements as there are bytes, and the ways in which it ends are these.
-/

namespace WireLayout

/-- As an element, a number is only looked for where there is room for it; any other schema is where any byte is left. -/
def Schema.room : Schema → Nat
  | number kind => kind.size
  | _ => 1

theorem Schema.room_pos (schema : Schema) : 0 < schema.room := by
  cases schema with
  | number kind => cases kind <;> decide
  | _ => exact Nat.one_pos

namespace Elements

/-- Elements are read one after another, and each moves forward within the input: where each is read, and its value. -/
inductive Reads (step : Unpacking Value) : WalkState Cursor → List (WalkState Cursor × Value) → WalkState Cursor → Prop where
  | nil {s : WalkState Cursor} : Reads step s [] s
  | cons {s s₁ last : WalkState Cursor} {v : Value} {trace : List (WalkState Cursor × Value)} (read : step s = .ok (v, s₁))
      (input : s₁.medium.data = s.medium.data) (forward : s.medium.position < s₁.medium.position) (inside : s₁.medium.InBounds)
      (rest : Reads step s₁ trace last) : Reads step s ((s, v) :: trace) last

/-- How reading ends where the last element has ended: where one more is read for that, and what comes of it. -/
inductive Ends (step : Unpacking Value) (room : Nat) (last : WalkState Cursor) :
    List (WalkState Cursor) → Except Stop (WalkState Cursor) → Prop where
  | short (few : last.medium.remaining < room) : Ends step room last [] (.ok last)
  | dropped {v : Value} {s : WalkState Cursor} (enough : room ≤ last.medium.remaining) (read : step last = .ok (v, s))
      (still : s.medium.position = last.medium.position) : Ends step room last [last] (.ok s)
  | failed {stop : Stop} (enough : room ≤ last.medium.remaining) (fails : step last = .error stop) :
      Ends step room last [last] (.error stop)

variable {step step' : Unpacking Value} {s last : WalkState Cursor} {trace : List (WalkState Cursor × Value)}
  {room : Nat} {more : List (WalkState Cursor)} {outcome : Except Stop (WalkState Cursor)}

/-- Moving forward within the same input leaves fewer bytes. -/
theorem remaining_lt {s₁ : WalkState Cursor} (input : s₁.medium.data = s.medium.data)
    (forward : s.medium.position < s₁.medium.position) (inside : s₁.medium.InBounds) :
    s₁.medium.remaining < s.medium.remaining := by
  unfold Cursor.InBounds at inside
  unfold Cursor.remaining
  rw [input] at inside ⊢
  omega

/-- Every element takes a byte. -/
theorem Reads.length_le (h : Reads step s trace last) : trace.length + last.medium.remaining ≤ s.medium.remaining := by
  induction h with
  | nil => exact Nat.le_of_eq (Nat.zero_add _)
  | cons read input forward inside rest ih =>
    have hless := remaining_lt input forward inside
    rw [List.length_cons]
    omega

/-- At most one more element is read to find the end, and only where bytes are left. -/
theorem Ends.length_le (h : Ends step room last more outcome) (hroom : 0 < room) : more.length ≤ last.medium.remaining := by
  cases h with
  | short few => exact Nat.zero_le _
  | dropped enough _ _ | failed enough _ => exact Nat.le_trans hroom enough

/-- A run ends well at the end of the input, before a number that has no room, or before an element that takes no byte. -/
theorem Ends.ok_cases {schema : Schema} {s' : WalkState Cursor} (h : Ends step schema.room last more (.ok s')) :
    s' = last ∧ last.medium.remaining = 0 ∨
      (∃ kind, schema = .number kind ∧ s' = last ∧ last.medium.remaining < kind.size) ∨
      ∃ v, more = [last] ∧ step last = .ok (v, s') ∧ s'.medium.position = last.medium.position := by
  cases h with
  | short few =>
    cases schema with
    | number kind => exact Or.inr (Or.inl ⟨kind, rfl, rfl, few⟩)
    | _ => exact Or.inl ⟨rfl, Nat.lt_one_iff.mp few⟩
  | dropped enough read still => exact Or.inr (Or.inr ⟨_, rfl, read, still⟩)

/-- A step that does the same at these places reads the same elements. -/
theorem Reads.congr (h : Reads step s trace last) (same : ∀ call ∈ trace.map Prod.fst, step' call = step call) :
    Reads step' s trace last := by
  induction h with
  | nil => exact .nil
  | cons read input forward inside rest ih =>
    rw [List.map_cons] at same
    have hfirst := same _ List.mem_cons_self
    exact .cons (hfirst.trans read) input forward inside (ih fun call hcall => same call (List.mem_cons_of_mem _ hcall))

theorem Ends.congr (h : Ends step room last more outcome) (same : ∀ call ∈ more, step' call = step call) :
    Ends step' room last more outcome := by
  cases h with
  | short few => exact .short few
  | dropped enough read still => exact .dropped enough ((same last List.mem_cons_self).trans read) still
  | failed enough fails => exact .failed enough ((same last List.mem_cons_self).trans fails)

/-- Where steps only move forward there is a run of elements to the end. The induction is on the bytes that are left. -/
theorem exists_reads (hforward : Unpacking.Forward step) (hroom : 0 < room) (s : WalkState Cursor) :
    ∃ trace last more outcome, Reads step s trace last ∧ Ends step room last more outcome := by
  induction hleft : s.medium.remaining using Nat.strongRecOn generalizing s with
  | _ left ih =>
    rcases Nat.lt_or_ge s.medium.remaining room with few | enough
    · exact ⟨[], s, [], .ok s, .nil, .short few⟩
    · cases hstep : step s with
      | error stop => exact ⟨[], s, [s], .error stop, .nil, .failed enough hstep⟩
      | ok result =>
        obtain ⟨v, s₁⟩ := result
        have hin : s.medium.InBounds := by
          unfold Cursor.remaining at enough
          unfold Cursor.InBounds
          omega
        obtain ⟨input, hle, inside⟩ := hforward s.medium s.scope v s₁ hin hstep
        rcases Nat.eq_or_lt_of_le hle with still | forward
        · exact ⟨[], s, [s], .ok s₁, .nil, .dropped enough hstep still.symm⟩
        · have hless := remaining_lt input forward inside
          obtain ⟨trace, last, more, outcome, hreads, hends⟩ := ih _ (hleft ▸ hless) s₁ rfl
          exact ⟨(s, v) :: trace, last, more, outcome, .cons hstep input forward inside hreads, hends⟩

/-! ## The array is the run -/

/-- As many elements as the run has are read one by one. -/
theorem Reads.times (h : Reads step s trace last) (done : List Value) :
    times step trace.length done s = .ok (done.reverse ++ trace.map Prod.snd, last) := by
  induction h generalizing done with
  | nil =>
    rw [List.map_nil, List.append_nil]
    rfl
  | @cons s s₁ last v trace read input forward inside rest ih =>
    rw [List.length_cons, times_succ, Walk.bind_apply, read]
    dsimp only
    rw [ih, List.reverse_cons, List.append_assoc]
    rfl

theorem untilEnd_succ (step : Unpacking Value) (rounds : Nat) (done : List Value) (s : WalkState Cursor) :
    untilEnd step (rounds + 1) done s =
      if s.medium.remaining = 0 then .ok (done.reverse, s)
      else
        match step s with
        | .ok (v, s') =>
          if s'.medium.position = s.medium.position then .ok (done.reverse, s')
          else untilEnd step rounds (v :: done) s'
        | .error stop => .error stop := by
  rw [untilEnd]
  exact ite_congr (propext beq_iff_eq) (fun _ => rfl) fun _ => rfl

/-- Reading to the end is the run, under any number of rounds that is larger than its length. -/
theorem Reads.untilEnd (h : Reads step s trace last) (hends : Ends step 1 last more outcome) {rounds : Nat}
    (hrounds : trace.length < rounds) (done : List Value) :
    untilEnd step rounds done s = outcome.map fun s' => (done.reverse ++ trace.map Prod.snd, s') := by
  obtain ⟨rounds, rfl⟩ := Nat.exists_eq_add_of_lt hrounds
  clear hrounds
  induction h generalizing done with
  | @nil s =>
    rw [untilEnd_succ, List.map_nil, List.append_nil]
    cases hends with
    | short few =>
      rw [if_pos (Nat.lt_one_iff.mp few)]
      rfl
    | dropped enough read still =>
      rw [if_neg (Nat.ne_of_gt enough), read]
      dsimp only
      rw [if_pos still]
      rfl
    | failed enough fails =>
      rw [if_neg (Nat.ne_of_gt enough), fails]
      rfl
  | @cons s s₁ last v trace read input forward inside rest ih =>
    have hless := remaining_lt input forward inside
    have hnext : ((s, v) :: trace).length + rounds = trace.length + rounds + 1 := Nat.add_right_comm _ _ _
    rw [untilEnd_succ, if_neg (Nat.ne_of_gt (Nat.zero_lt_of_lt hless)), read]
    dsimp only
    rw [if_neg (Nat.ne_of_gt forward), hnext, ih hends, List.reverse_cons, List.append_assoc]
    rfl

variable {Γ : Context}

/-- As many numbers as fit into what is left are the run of numbers to the end. -/
theorem Reads.numbers {kind : Number} (h : Reads (Unpacking.number Γ kind) s trace last)
    (hends : Ends (Unpacking.number Γ kind) kind.size last more outcome) :
    unpackNumbers Γ kind none s = outcome.map fun s' => (trace.map Prod.snd, s') := by
  have hpos : 0 < kind.size := (Schema.number kind).room_pos
  have htimes := h.times []
  cases hends with
  | short few =>
    obtain ⟨hle, hlast⟩ := times_number_eq_ok.mp htimes
    have hleft : last.medium.remaining = s.medium.remaining - kind.size * trace.length := by
      rw [(Prod.mk.inj hlast).2]
      exact (Nat.sub_sub _ _ _).symm
    have hcount : s.medium.remaining / kind.size = trace.length := by
      rw [hleft] at few
      have hle' : kind.size * trace.length ≤ s.medium.remaining := hle
      refine Nat.div_eq_of_lt_le ?_ ?_
      · rw [Nat.mul_comm]
        exact hle'
      · rw [Nat.succ_mul, Nat.mul_comm]
        omega
    show unpackNumbers Γ kind (some (s.medium.remaining / kind.size)) s = _
    rw [hcount]
    exact unpackNumbers_eq_ok.mpr htimes
  | dropped enough read still =>
    obtain ⟨-, hread⟩ := number_eq_ok.mp read
    cases hread
    have hmoved : last.medium.position + kind.size = last.medium.position := still
    omega
  | failed enough fails =>
    rw [number_eq_ok.mpr ⟨enough, rfl⟩] at fails
    cases fails

/-- Reading as many elements as there are is the run of elements to the end, whatever the schema. -/
theorem Reads.unpack {run : Schema → Unpacking Value} {item : Candidate} {schema : Schema}
    (hitem : Γ.registry.resolve item = .ok schema) (h : Reads (readOne Γ run schema) s trace last)
    (hends : Ends (readOne Γ run schema) schema.room last more outcome) :
    unpack Γ run item none s = outcome.map fun s' => (.list (trace.map Prod.snd), s') := by
  have hlist : ∀ step : Unpacking (List Value), step s = outcome.map (fun s' => (trace.map Prod.snd, s')) →
      (step >>= fun items => pure (Value.list items)) s = outcome.map fun s' => (.list (trace.map Prod.snd), s') := by
    intro step hstep
    rw [Walk.bind_apply, hstep]
    cases outcome <;> rfl
  rw [Elements.unpack, Walk.resolve_bind_ok hitem]
  cases schema with
  | number kind => exact hlist _ (h.numbers hends)
  | _ =>
    have hrounds : trace.length < roundsFor s.medium.data := by
      have hlength := h.length_le
      unfold Cursor.remaining at hlength
      unfold roundsFor
      omega
    exact hlist (Elements.untilEnd _ _ []) (h.untilEnd hends hrounds [])

end Elements

namespace Codec

variable {Γ : Context} {item : Candidate} {schema : Schema}

/-- Reading one element moves forward, unless a kind defined by the user runs inside. -/
theorem forward_readOne (plain : Site.Throughout Γ.registry .any (fun site => site.schema.isCustom = false) (.top schema))
    (depth : Nat) : Unpacking.Forward (Elements.readOne Γ (unpack Γ depth) schema) := by
  cases schema with
  | number kind => exact Unpacking.compositional_forward.number kind
  | _ => exact (unpack_forward_relocatable depth plain).1

/-- Reading to the end of the input ends, whatever the elements are, unless a kind defined by the user runs inside them. Elements are read at
the places of `trace`, where each takes a byte at least, and perhaps once more, at most as often as there are bytes; what they do elsewhere does
not matter. Reading fails, or gives up, only where an element does, and otherwise comes to the end of the input, to a number that has no room,
or to an element that takes no byte and is dropped. -/
theorem unpack_toEnd (resolved : Γ.registry.resolve item = .ok schema)
    (plain : Site.Throughout Γ.registry .any (fun site => site.schema.isCustom = false) (.top schema)) (depth : Nat)
    (s : WalkState Cursor) :
    ∃ trace last more, ∃ outcome : Except Stop (WalkState Cursor),
      Elements.Reads (Elements.readOne Γ (unpack Γ depth) schema) s trace last ∧
      (trace.map Prod.fst ++ more).length ≤ s.medium.remaining ∧
      (∀ run, (∀ call ∈ trace.map Prod.fst ++ more,
          Elements.readOne Γ run schema call = Elements.readOne Γ (unpack Γ depth) schema call) →
        unpackStep Γ run (.array item .auto) s = unpack Γ (depth + 1) (.array item .auto) s) ∧
      unpack Γ (depth + 1) (.array item .auto) s = outcome.map (fun s' => (.list (trace.map Prod.snd), s')) ∧
      (∀ stop, outcome = .error stop → more = [last] ∧ Elements.readOne Γ (unpack Γ depth) schema last = .error stop) ∧
      ((∀ call, Elements.readOne Γ (unpack Γ depth) schema call ≠ .error .exhausted) →
        unpack Γ (depth + 1) (.array item .auto) s ≠ .error .exhausted) ∧
      ∀ s', outcome = .ok s' →
        s' = last ∧ last.medium.remaining = 0 ∨
          (∃ kind, schema = .number kind ∧ s' = last ∧ last.medium.remaining < kind.size) ∨
          ∃ v, more = [last] ∧ Elements.readOne Γ (unpack Γ depth) schema last = .ok (v, s') ∧
            s'.medium.position = last.medium.position := by
  obtain ⟨trace, last, more, outcome, hreads, hends⟩ := Elements.exists_reads (forward_readOne plain depth) schema.room_pos s
  have hstep : ∀ run, (∀ call ∈ trace.map Prod.fst ++ more,
      Elements.readOne Γ run schema call = Elements.readOne Γ (unpack Γ depth) schema call) →
      unpackStep Γ run (.array item .auto) s = outcome.map fun s' => (.list (trace.map Prod.snd), s') := by
    intro run hsame
    have hreads' := hreads.congr fun call hcall => hsame call (List.mem_append_left _ hcall)
    have hends' := hends.congr fun call hcall => hsame call (List.mem_append_right _ hcall)
    have hunpack := hreads'.unpack resolved hends'
    rw [← Elements.unpackArray_auto] at hunpack
    exact hunpack
  have hread : unpack Γ (depth + 1) (.array item .auto) s = outcome.map fun s' => (.list (trace.map Prod.snd), s') :=
    hstep (unpack Γ depth) fun _ _ => rfl
  have hfails : ∀ stop, outcome = .error stop → more = [last] ∧ Elements.readOne Γ (unpack Γ depth) schema last = .error stop := by
    rintro stop rfl
    cases hends with
    | failed enough fails => exact ⟨rfl, fails⟩
  refine ⟨trace, last, more, outcome, hreads, ?_, ?_, hread, hfails, ?_, ?_⟩
  · have hcalls := hends.length_le schema.room_pos
    have hlength := hreads.length_le
    rw [List.length_append, List.length_map]
    omega
  · intro run hsame
    rw [hread, hstep run hsame]
  · intro hitem hstop
    rw [hread] at hstop
    cases outcome with
    | ok s' => cases hstop
    | error stop =>
      cases hstop
      exact hitem last (hfails .exhausted rfl).2
  · rintro s' rfl
    exact hends.ok_cases

/-- Runs of words, of which the first takes the two words there are. The byte behind them is no word, so the next run takes nothing and is
dropped, and reading ends in front of it. -/
theorem unpack_toEnd_leftover :
    unpack Packet.context 3 (.array (.array (.number .uint16) .auto) .auto) ⟨⟨#[1, 0, 2, 0, 9], 0⟩, none⟩ =
        .ok (.list [.list [.int 1, .int 2]], ⟨⟨#[1, 0, 2, 0, 9], 4⟩, none⟩) ∧
      ∃ trace last more,
        Elements.Reads (Elements.readOne Packet.context (unpack Packet.context 2) (.array (.number .uint16) .auto))
          ⟨⟨#[1, 0, 2, 0, 9], 0⟩, none⟩ trace last ∧
        trace.map Prod.snd = [.list [.int 1, .int 2]] ∧ last.medium.position = 4 ∧ (trace.map Prod.fst ++ more).length ≤ 5 := by
  have plain : Site.Throughout Packet.context.registry .any (fun site => site.schema.isCustom = false)
      (.top (.array (.number .uint16) .auto)) := by
    refine Site.throughout_array rfl ?_
    rintro _ ⟨⟩
    exact Site.throughout_number rfl
  have read : unpack Packet.context 3 (.array (.array (.number .uint16) .auto) .auto) ⟨⟨#[1, 0, 2, 0, 9], 0⟩, none⟩ =
      .ok (.list [.list [.int 1, .int 2]], ⟨⟨#[1, 0, 2, 0, 9], 4⟩, none⟩) := rfl
  obtain ⟨trace, last, more, outcome, reads, calls, -, whole, -, -, ends⟩ :=
    @unpack_toEnd Packet.context (.array (.number .uint16) .auto) _ rfl plain 2 ⟨⟨#[1, 0, 2, 0, 9], 0⟩, none⟩
  rw [read] at whole
  cases outcome with
  | error stop => cases whole
  | ok s' =>
    obtain ⟨values, rfl⟩ := Prod.mk.inj (Except.ok.inj whole)
    refine ⟨read, trace, last, more, reads, (Value.list.inj values).symm, ?_, calls⟩
    obtain ⟨rfl, -⟩ | ⟨_, -, rfl, -⟩ | ⟨_, -, -, still⟩ := ends _ rfl
    · rfl
    · rfl
    · exact still.symm

end Codec

end WireLayout
