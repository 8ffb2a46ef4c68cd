import WireLayout.Proofs.Shorthand
import WireLayout.Schema.Text

/-!
# Texts that are told apart

Schema texts are built from bare words, names in quotes and groups in brackets. A reader who knows that a text starts here knows where
it ends, and what was written: two texts, with anything behind them that does not go on with their last word, agree only when they say
the same, and then the same is behind them (`Discerns`). The property is closed under everything that texts are made with: marks between
them, calls, and lists between brackets, of whatever lengths.
-/

namespace WireLayout

/-! ## Words and what is behind them -/

/-- What can be behind a run of characters of a class: nothing, or something that does not go on with it. -/
def EndsRun (p : Char → Bool) (rest : List Char) : Prop := ∀ c ∈ rest.head?, p c = false

section Runs

variable {p : Char → Bool} {run run' rest rest' : List Char}

theorem EndsRun.cons {c : Char} (other : p c = false) (rest : List Char) : EndsRun p (c :: rest) := by
  rintro _ ⟨⟩
  exact other

theorem EndsRun.takeWhile (ends : EndsRun p rest) : rest.takeWhile p = [] := by
  cases rest with
  | nil => rfl
  | cons c rest => exact List.takeWhile_cons_of_neg (Bool.not_eq_true _ ▸ ends c rfl)

/-- A run of characters of a class ends where the first other character is. -/
theorem split_run (inside : ∀ c ∈ run, p c) (inside' : ∀ c ∈ run', p c) (ends : EndsRun p rest) (ends' : EndsRun p rest')
    (same : run ++ rest = run' ++ rest') : run = run' ∧ rest = rest' := by
  have runs := congrArg (List.takeWhile p) same
  rw [List.takeWhile_append_of_pos inside, List.takeWhile_append_of_pos inside', ends.takeWhile, ends'.takeWhile, List.append_nil,
    List.append_nil] at runs
  subst runs
  exact ⟨rfl, List.append_cancel_left same⟩

end Runs

/-- A text without a quote in it. -/
def Unquoted (text : String) : Prop := '\x27' ∉ text.toList

/-- A character of a word: of a key, of the name of a kind, or of a number. -/
def isWordChar (c : Char) : Bool := Registry.isNameChar c || c == '-'

/-- A text of such characters, or of none. -/
def IsBare (text : String) : Prop := ∀ c ∈ text.toList, isWordChar c

theorem IsBare.of_isWord {text : String} (h : Registry.IsWord text.toList) : IsBare text := by
  intro c hc
  have name : Registry.isNameChar c = true := List.all_eq_true.1 ((Registry.isWord_iff text.toList).1 h).2 c hc
  rw [isWordChar, name, Bool.true_or]

theorem IsBare.toString_nat (n : Nat) : IsBare (toString n) := by
  intro c hc
  have digit : c.isDigit = true := Nat.isDigit_of_mem_toDigits (by decide) (by decide) (Nat.toList_repr ▸ hc)
  simp [isWordChar, Registry.isNameChar, Char.isAlphanum, digit]

theorem IsBare.toString_int (n : Int) : IsBare (toString n) := by
  cases n with
  | ofNat n => exact .toString_nat n
  | negSucc n =>
    have text : (toString (Int.negSucc n)).toList = '-' :: (toString (n + 1)).toList := by
      rw [show toString (Int.negSucc n) = "-" ++ toString (n + 1) from rfl, String.toList_append]
      rfl
    intro c hc
    rw [text] at hc
    rcases List.mem_cons.1 hc with rfl | hc
    · rfl
    · exact IsBare.toString_nat (n + 1) c hc

/-! ## How texts start -/

/-- A text that starts with a word, or with nothing, and has the given mark behind it. -/
structure Headed (word : String) (mark : Char) (text : String) : Prop where
  bare : IsBare word
  marked : isWordChar mark = false
  starts : ∃ rest, text.toList = word.toList ++ mark :: rest

theorem Headed.quoted (n : String) : Headed "" '\x27' (quoted n) :=
  ⟨nofun, rfl, n.toList ++ ['\x27'], by simp [WireLayout.quoted]⟩

theorem Headed.called {name : String} (bare : IsBare name) (arguments : List String) : Headed name '(' (called name arguments) :=
  ⟨bare, rfl, (commaSeparated arguments).toList ++ [')'], by simp [WireLayout.called]⟩

theorem Headed.braced (parts : List String) : Headed "" '\x7b' (braced parts) :=
  ⟨nofun, rfl, (commaSeparated parts).toList ++ ['\x7d'], by simp [WireLayout.braced]⟩

theorem Headed.bracketed (parts : List String) : Headed "" '[' (bracketed parts) :=
  ⟨nofun, rfl, (commaSeparated parts).toList ++ [']'], by simp [WireLayout.bracketed]⟩

/-- A text that starts with something other than the given mark. -/
def StartsApart (c : Char) (text : String) : Prop := ∃ word mark, Headed word mark text ∧ (word = "" → mark ≠ c)

theorem StartsApart.ne {c : Char} {text : String} (apart : StartsApart c text) (closing : isWordChar c = false) (rest rest' : List Char) :
    text.toList ++ rest ≠ c :: rest' := by
  obtain ⟨word, mark, head, other⟩ := apart
  obtain ⟨inner, starts⟩ := head.starts
  intro same
  rw [starts, List.append_assoc, List.cons_append] at same
  have split : word.toList = [] ∧ mark :: (inner ++ rest) = c :: rest' :=
    split_run head.bare nofun (.cons head.marked _) (.cons closing rest') same
  exact other (String.toList_inj.1 split.1) (List.cons.inj split.2).1

/-! ## Texts that are told apart -/

/-- Two texts agree only when `P` holds, whatever is behind them, and then the same is behind them. -/
def Discerns (P : Prop) (text text' : String) : Prop :=
  ∀ rest rest', EndsRun isWordChar rest → EndsRun isWordChar rest' → text.toList ++ rest = text'.toList ++ rest' → P ∧ rest = rest'

namespace Discerns

variable {P Q : Prop} {text text' : String}

theorem imp (h : Discerns P text text') (himp : P → Q) : Discerns Q text text' := fun rest rest' ends ends' same =>
  (h rest rest' ends ends' same).imp_left himp

theorem symm (h : Discerns P text text') : Discerns P text' text := fun rest rest' ends ends' same =>
  (h rest' rest ends' ends same.symm).imp_right Eq.symm

/-- A text that is the same on both sides needs nothing to be told apart. -/
theorem refl (holds : P) (text : String) : Discerns P text text := fun _ _ _ _ same => ⟨holds, List.append_cancel_left same⟩

theorem of_eq (h : Discerns P text text') (same : text = text') : P :=
  (h [] [] nofun nofun (by rw [same])).1

/-- Words are told apart. -/
theorem bare (word : IsBare text) (word' : IsBare text') : Discerns (text = text') text text' := fun _ _ ends ends' same =>
  (split_run word word' ends ends' same).imp_left String.toList_inj.1

/-- Names in quotes are told apart: a name ends where the next quote is. -/
theorem quoted {n n' : String} (plain : Unquoted n) (plain' : Unquoted n') :
    Discerns (n = n') (WireLayout.quoted n) (WireLayout.quoted n') := by
  intro rest rest' _ _ same
  have inside {name : String} (plain : Unquoted name) : ∀ c ∈ name.toList, (c != '\x27') = true := fun c hc =>
    bne_iff_ne.2 fun quote => plain (quote ▸ hc)
  simp only [WireLayout.quoted, String.toList_append, String.reduceToList, List.append_assoc, List.cons_append, List.nil_append,
    List.cons.injEq, true_and] at same
  obtain ⟨names, behind⟩ := split_run (inside plain) (inside plain') (.cons rfl rest) (.cons rfl rest') same
  exact ⟨String.toList_inj.1 names, (List.cons.inj behind).2⟩

/-- A word and a text that starts with another one are told apart. -/
theorem bare_headed {word : String} {mark : Char} (run : IsBare text) (head : Headed word mark text') (other : text ≠ word) :
    Discerns P text text' := by
  intro rest rest' ends _ same
  obtain ⟨inner, starts⟩ := head.starts
  rw [starts, List.append_assoc, List.cons_append] at same
  have words := (split_run run head.bare ends (.cons head.marked _) same).1
  exact absurd (String.toList_inj.1 words) other

/-- Only texts that start alike have to be told apart. -/
theorem of_headed {word word' : String} {mark mark' : Char} (head : Headed word mark text) (head' : Headed word' mark' text')
    (h : word = word' → mark = mark' → Discerns P text text') : Discerns P text text' := by
  intro rest rest' ends ends' same
  obtain ⟨inner, starts⟩ := head.starts
  obtain ⟨inner', starts'⟩ := head'.starts
  have heads := same
  rw [starts, starts', List.append_assoc, List.append_assoc, List.cons_append, List.cons_append] at heads
  obtain ⟨words, behind⟩ := split_run head.bare head'.bare (.cons head.marked _) (.cons head'.marked _) heads
  exact h (String.toList_inj.1 words) (List.cons.inj behind).1 rest rest' ends ends' same

variable {text₁ text₂ text₁' text₂' mark : String} {c : Char}

/-- Texts in front of a mark and texts behind it. -/
theorem joined (marked : mark.toList = [c]) (other : isWordChar c = false) (h₁ : Discerns P text₁ text₁') (h₂ : Discerns Q text₂ text₂') :
    Discerns (P ∧ Q) (text₁ ++ mark ++ text₂) (text₁' ++ mark ++ text₂') := by
  intro rest rest' ends ends' same
  simp only [String.toList_append, marked, List.append_assoc, List.cons_append, List.nil_append] at same
  obtain ⟨left, behind⟩ := h₁ _ _ (.cons other _) (.cons other _) same
  obtain ⟨right, ending⟩ := h₂ rest rest' ends ends' (List.cons.inj behind).2
  exact ⟨⟨left, right⟩, ending⟩

theorem one (h : Discerns P text text') : Discerns P (commaSeparated [text]) (commaSeparated [text']) := h

theorem two (h₁ : Discerns P text₁ text₁') (h₂ : Discerns Q text₂ text₂') :
    Discerns (P ∧ Q) (commaSeparated [text₁, text₂]) (commaSeparated [text₁', text₂']) :=
  joined rfl rfl h₁ h₂

/-- Calls of one builder are told apart by their arguments. -/
theorem called {arguments arguments' : List String} (name : String)
    (h : Discerns P (commaSeparated arguments) (commaSeparated arguments')) :
    Discerns P (WireLayout.called name arguments) (WireLayout.called name arguments') := by
  intro rest rest' _ _ same
  simp only [WireLayout.called, String.toList_append, String.reduceToList, List.append_assoc, List.cons_append, List.nil_append,
    List.append_cancel_left_eq, List.cons.injEq, true_and] at same
  obtain ⟨inside, behind⟩ := h _ _ (.cons rfl _) (.cons rfl _) same
  exact ⟨inside, (List.cons.inj behind).2⟩

/-! ## Lists -/

/-- Texts with a comma in front of each. -/
def afterCommas (texts : List String) : List Char := texts.flatMap fun text => ',' :: text.toList

theorem toList_commaSeparated (text : String) (texts : List String) :
    (commaSeparated (text :: texts)).toList = text.toList ++ afterCommas texts := by
  induction texts generalizing text with
  | nil => simp [commaSeparated, afterCommas]
  | cons next texts ih =>
    have split : (commaSeparated (text :: next :: texts)).toList = text.toList ++ ',' :: (commaSeparated (next :: texts)).toList := by
      simp [commaSeparated, String.toList_intercalate]
    rw [split, ih next, afterCommas, afterCommas, List.flatMap_cons, List.cons_append]

section Lists

variable {α β : Type} {write : α → String} {meaning : α → β} {as bs : List α} {c : Char}

theorem afterCommas_end (closing : isWordChar c = false) (rest : List Char) (texts : List String) :
    EndsRun isWordChar (afterCommas texts ++ c :: rest) := by
  cases texts with
  | nil => exact .cons closing rest
  | cons text texts => exact .cons rfl _

/-- Of two lists that end at a mark other than a comma, one is over when the other is. -/
theorem afterCommas_inj (closing : isWordChar c = false) (other : c ≠ ',') {rest rest' : List Char}
    (each : ∀ a ∈ as, ∀ b ∈ bs, Discerns (meaning a = meaning b) (write a) (write b))
    (same : afterCommas (as.map write) ++ c :: rest = afterCommas (bs.map write) ++ c :: rest') :
    as.map meaning = bs.map meaning ∧ rest = rest' := by
  induction as generalizing bs with
  | nil =>
    cases bs with
    | nil => exact ⟨rfl, (List.cons.inj same).2⟩
    | cons b bs => exact absurd (List.cons.inj same).1 other
  | cons a as ih =>
    cases bs with
    | nil => exact absurd (List.cons.inj same).1.symm other
    | cons b bs =>
      simp only [List.map_cons, afterCommas, List.flatMap_cons, List.cons_append, List.append_assoc, List.cons.injEq, true_and] at same
      obtain ⟨first, others⟩ := each a List.mem_cons_self b List.mem_cons_self _ _ (afterCommas_end closing rest _)
        (afterCommas_end closing rest' _) same
      obtain ⟨tail, ending⟩ := ih (fun a ha b hb => each a (.tail _ ha) b (.tail _ hb)) others
      exact ⟨by rw [List.map_cons, List.map_cons, first, tail], ending⟩

/-- Lists between brackets are told apart, whatever their lengths. -/
theorem listed {opening close : String} (closes : close.toList = [c]) (closing : isWordChar c = false) (other : c ≠ ',')
    (apart : ∀ a ∈ as, StartsApart c (write a)) (apart' : ∀ b ∈ bs, StartsApart c (write b))
    (each : ∀ a ∈ as, ∀ b ∈ bs, Discerns (meaning a = meaning b) (write a) (write b)) :
    Discerns (as.map meaning = bs.map meaning) (opening ++ commaSeparated (as.map write) ++ close)
      (opening ++ commaSeparated (bs.map write) ++ close) := by
  intro rest rest' _ _ same
  simp only [String.toList_append, closes, List.append_assoc, List.cons_append, List.nil_append, List.append_cancel_left_eq] at same
  refine afterCommas_inj closing other each ?_
  cases as with
  | nil =>
    cases bs with
    | nil => exact same
    | cons b bs =>
      rw [List.map_cons, toList_commaSeparated, List.append_assoc] at same
      exact absurd same.symm ((apart' b List.mem_cons_self).ne closing _ _)
  | cons a as =>
    cases bs with
    | nil =>
      rw [List.map_cons, toList_commaSeparated, List.append_assoc] at same
      exact absurd same ((apart a List.mem_cons_self).ne closing _ _)
    | cons b bs =>
      simp only [List.map_cons, toList_commaSeparated] at same
      exact congrArg (',' :: ·) same

theorem braced (apart : ∀ a ∈ as, StartsApart '\x7d' (write a)) (apart' : ∀ b ∈ bs, StartsApart '\x7d' (write b))
    (each : ∀ a ∈ as, ∀ b ∈ bs, Discerns (meaning a = meaning b) (write a) (write b)) :
    Discerns (as.map meaning = bs.map meaning) (WireLayout.braced (as.map write)) (WireLayout.braced (bs.map write)) :=
  listed rfl rfl (by decide) apart apart' each

theorem bracketed (apart : ∀ a ∈ as, StartsApart ']' (write a)) (apart' : ∀ b ∈ bs, StartsApart ']' (write b))
    (each : ∀ a ∈ as, ∀ b ∈ bs, Discerns (meaning a = meaning b) (write a) (write b)) :
    Discerns (as.map meaning = bs.map meaning) (WireLayout.bracketed (as.map write)) (WireLayout.bracketed (bs.map write)) :=
  listed rfl rfl (by decide) apart apart' each

end Lists

end Discerns

end WireLayout
