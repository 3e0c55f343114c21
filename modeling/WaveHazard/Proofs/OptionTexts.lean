import Mathlib.Data.List.TakeWhile
import WaveHazard.Pass.Option

/-! # What an option text says

A text carries a value for an option: the bare form carries "true", and otherwise the value stands
behind an equals sign. It gives the option this value when the option accepts it. The pass reads
just these values, with one exception: the bare form of a number is not checked and read as a flag.
-/

namespace WaveHazard

/-- A text carries a value for an option of a pass. In the bare form the value is "true"; otherwise
it stands behind an equals sign and ends at a further one. -/
inductive Carries (pass name : String) : String → String → Prop
  | bare : Carries pass name (pass ++ ":" ++ name) "true"
  | whole {value : String} (unmarked : '=' ∉ value.toList) :
      Carries pass name (pass ++ ":" ++ name ++ "=" ++ value) value
  | cut {value more : String} (unmarked : '=' ∉ value.toList) :
      Carries pass name (pass ++ ":" ++ name ++ "=" ++ value ++ "=" ++ more) value

/-- A text carries a value that the option accepts. -/
def Gives (pass : String) (spec : OptionSpec) (text : String) (value : OptionValue) : Prop :=
  ∃ carried, Carries pass spec.name text carried ∧ spec.read? carried = some value

/-- Whether the value is a number. -/
def OptionValue.isNumber : OptionValue → Bool
  | flag _ => false
  | number _ => true

/-- A text names a number in the bare form. -/
def Misleads (pass : String) (spec : OptionSpec) (text : String) : Prop :=
  spec.default.isNumber = true ∧ text = pass ++ ":" ++ spec.name

/-- Every option of the pass has a name of its own, and texts can name the pass and its options. -/
structure Declares (pass : String) (specs : List OptionSpec) : Prop where
  addressable : ':' ∉ pass.toList
  unmarked : ∀ spec ∈ specs, '=' ∉ spec.name.toList
  once : (specs.map (·.name)).Nodup

variable {pass text : String} {specs : List OptionSpec} {spec : OptionSpec} {value : OptionValue}

/-- An option accepts values of its own kind only. -/
theorem isNumber_of_read? {carried : String} (accepted : spec.read? carried = some value) :
    value.isNumber = spec.default.isNumber := by
  unfold OptionSpec.read? at accepted
  split at accepted
  · next kind =>
      rw [kind]
      unfold OptionValue.readFlag? at accepted
      split at accepted
      · cases accepted
        rfl
      · split at accepted
        · cases accepted
          rfl
        · cases accepted
  · next kind =>
      rw [kind]
      obtain ⟨number, _, rfl⟩ := Option.map_eq_some_iff.mp accepted
      rfl

/-- "true" is a value for flags, and for nothing else. -/
theorem read?_true : spec.read? "true" =
    if spec.default.isNumber then none else some (.flag true) := by
  unfold OptionSpec.read?
  cases spec.default <;> rfl

/-- An option that is declared is found by its name. -/
theorem Declares.find? (declares : Declares pass specs) (listed : spec ∈ specs) :
    specs.find? (·.name == spec.name) = some spec := by
  have once := declares.once
  clear declares
  induction specs with
  | nil => exact absurd listed List.not_mem_nil
  | cons first rest ih =>
      rw [List.map_cons, List.nodup_cons] at once
      rcases List.mem_cons.mp listed with rfl | later
      · exact List.find?_cons_of_pos (beq_self_eq_true _)
      · have different : first.name ≠ spec.name := by
          intro same
          exact once.1 (same ▸ List.mem_map_of_mem later)
        rw [List.find?_cons_of_neg (by simpa using different)]
        exact ih later once.2

/-! ## Reading a text -/

namespace OptionText

variable {mark : Char} {before after chars : List Char}

theorem ne_mark (unmarked : mark ∉ chars) : ∀ char ∈ chars, (char != mark) = true :=
  fun _ member => bne_iff_ne.mpr fun same => unmarked (same ▸ member)

theorem takeWhile_append (unmarked : mark ∉ before) :
    (before ++ mark :: after).takeWhile (· != mark) = before := by
  rw [List.takeWhile_append_of_pos (ne_mark unmarked), List.takeWhile_cons_of_neg (by simp),
    List.append_nil]

theorem takeWhile_of_unmarked (unmarked : mark ∉ chars) :
    chars.takeWhile (· != mark) = chars :=
  List.takeWhile_eq_self_iff.mpr (ne_mark unmarked)

/-- A text is cut at its first mark. -/
theorem cut?_append (unmarked : mark ∉ before) :
    cut? mark (before ++ mark :: after) = some (before, after) := by
  unfold cut?
  rw [List.dropWhile_append_of_pos (ne_mark unmarked), List.dropWhile_cons_of_neg (by simp),
    takeWhile_append unmarked]

theorem cut?_of_unmarked (unmarked : mark ∉ chars) : cut? mark chars = none := by
  unfold cut?
  rw [List.dropWhile_eq_nil_iff.mpr (ne_mark unmarked)]

/-- Characters have no mark, or they are what stands before and behind the first one. -/
theorem unmarked_or_eq_append (mark : Char) (chars : List Char) :
    mark ∉ chars ∨ ∃ before after, chars = before ++ mark :: after ∧ mark ∉ before := by
  by_cases marked : mark ∈ chars
  · obtain ⟨before, after, split, unmarked⟩ := List.eq_append_cons_of_mem marked
    exact .inr ⟨before, after, split, unmarked⟩
  · exact .inl marked

/-- The bare form is not checked. -/
theorem read_bare (declares : Declares pass specs) (listed : spec ∈ specs) :
    read pass specs (pass ++ ":" ++ spec.name) = .given spec.name (.flag true) := by
  have chars : (pass ++ ":" ++ spec.name).toList = pass.toList ++ ':' :: spec.name.toList := by
    simp
  have unmarked := declares.unmarked spec listed
  unfold read
  rw [chars, cut?_append declares.addressable]
  simp only [String.ofList_toList, ne_eq, not_true_eq_false, if_false,
    takeWhile_of_unmarked unmarked, declares.find? listed, cut?_of_unmarked unmarked]

/-- A value behind an equals sign is kept when the option accepts it. -/
theorem read_valued (declares : Declares pass specs) (listed : spec ∈ specs) {tail : String}
    (accepted : spec.read? (String.ofList (tail.toList.takeWhile (· != '='))) = some value) :
    read pass specs (pass ++ ":" ++ spec.name ++ "=" ++ tail) = .given spec.name value := by
  have chars : (pass ++ ":" ++ spec.name ++ "=" ++ tail).toList =
      pass.toList ++ ':' :: (spec.name.toList ++ '=' :: tail.toList) := by
    simp
  have unmarked := declares.unmarked spec listed
  unfold read
  rw [chars, cut?_append declares.addressable]
  simp only [String.ofList_toList, ne_eq, not_true_eq_false, if_false,
    takeWhile_append unmarked, declares.find? listed, cut?_append unmarked, accepted]

/-- What is read as a value has one of the two forms. -/
theorem of_read_given {name : String} (given : read pass specs text = .given name value) :
    ∃ spec ∈ specs, spec.name = name ∧
      (text = pass ++ ":" ++ name ∧ value = .flag true ∨
        ∃ tail : String, text = pass ++ ":" ++ name ++ "=" ++ tail ∧
          spec.read? (String.ofList (tail.toList.takeWhile (· != '='))) = some value) := by
  unfold read at given
  rcases unmarked_or_eq_append ':' text.toList with unmarked | ⟨addressee, rest, split, unmarked⟩
  · rw [cut?_of_unmarked unmarked] at given
    cases given
  rw [split, cut?_append unmarked] at given
  dsimp only at given
  split at given
  · cases given
  next addressed =>
  obtain rfl : String.ofList addressee = pass := not_not.mp addressed
  split at given
  · cases given
  next spec found =>
  have listed : spec ∈ specs := List.mem_of_find?_eq_some found
  have matching := List.find?_some found
  have named : spec.name = String.ofList (rest.takeWhile (· != '=')) := beq_iff_eq.mp matching
  rcases unmarked_or_eq_append '=' rest with bare | ⟨before, tail, parts, unmarkedName⟩
  · rw [cut?_of_unmarked bare, takeWhile_of_unmarked bare] at given
    rw [takeWhile_of_unmarked bare] at named
    cases given
    refine ⟨spec, listed, named, .inl ⟨?_, rfl⟩⟩
    rw [← String.toList_inj, split]
    simp
  · rw [parts, takeWhile_append unmarkedName] at named
    rw [parts, cut?_append unmarkedName, takeWhile_append unmarkedName] at given
    dsimp only at given
    split at given
    · next accepted =>
        cases given
        refine ⟨spec, listed, named, .inr ⟨String.ofList tail, ?_, ?_⟩⟩
        · rw [← String.toList_inj, split, parts]
          simp
        · rwa [String.toList_ofList]
    · cases given

/-- A text is read as a value when it gives the option this value, and in the bare form. -/
theorem read_eq_given_iff (declares : Declares pass specs) (listed : spec ∈ specs) :
    read pass specs text = .given spec.name value ↔
      Gives pass spec text value ∨ Misleads pass spec text ∧ value = .flag true := by
  constructor
  · intro given
    obtain ⟨other, also, same, forms⟩ := of_read_given given
    obtain rfl : other = spec := by
      have found := declares.find? also
      rw [same, declares.find? listed] at found
      exact (Option.some.inj found).symm
    rcases forms with ⟨bare, rfl⟩ | ⟨tail, valued, accepted⟩
    · cases kind : other.default.isNumber with
      | true => exact .inr ⟨⟨kind, bare⟩, rfl⟩
      | false =>
          refine .inl ⟨"true", bare ▸ .bare, ?_⟩
          rw [read?_true, kind]
          rfl
    · refine .inl ⟨_, ?_, accepted⟩
      rcases unmarked_or_eq_append '=' tail.toList with unmarked | ⟨before, more, parts, unmarked⟩
      · rw [takeWhile_of_unmarked unmarked, String.ofList_toList, valued]
        exact .whole unmarked
      · have whole : tail = String.ofList before ++ "=" ++ String.ofList more := by
          rw [← String.toList_inj, parts]
          simp
        rw [parts, takeWhile_append unmarked, valued, whole, ← String.append_assoc,
          ← String.append_assoc]
        exact .cut (by rwa [String.toList_ofList])
  · rintro (⟨carried, carries, accepted⟩ | ⟨⟨_, rfl⟩, rfl⟩)
    · cases carries with
      | bare =>
          rw [read?_true] at accepted
          split at accepted
          · cases accepted
          · cases accepted
            exact read_bare declares listed
      | whole unmarked =>
          apply read_valued declares listed
          rwa [takeWhile_of_unmarked unmarked, String.ofList_toList]
      | @cut _ more unmarked =>
          have whole : pass ++ ":" ++ spec.name ++ "=" ++ carried ++ "=" ++ more =
              pass ++ ":" ++ spec.name ++ "=" ++ (carried ++ "=" ++ more) := by
            simp only [String.append_assoc]
          rw [whole]
          apply read_valued declares listed
          have chars : (carried ++ "=" ++ more).toList = carried.toList ++ '=' :: more.toList := by
            simp
          rwa [chars, takeWhile_append unmarked, String.ofList_toList]
    · exact read_bare declares listed

/-- A text gives an option one value at most. -/
theorem gives_unique (declares : Declares pass specs) (listed : spec ∈ specs)
    {other : OptionValue} (left : Gives pass spec text value) (right : Gives pass spec text other) :
    value = other := by
  have first := (read_eq_given_iff declares listed).mpr (.inl left)
  have second := (read_eq_given_iff declares listed).mpr (.inl right)
  rw [first] at second
  cases second
  rfl

/-- The bare form of a number does not give it a value. -/
theorem not_gives_of_misleads (declares : Declares pass specs) (listed : spec ∈ specs)
    (misleads : Misleads pass spec text) : ¬ Gives pass spec text value := by
  intro gives
  have first := (read_eq_given_iff declares listed).mpr (.inl gives)
  have second := (read_eq_given_iff declares listed).mpr (.inr ⟨misleads, rfl⟩)
  obtain ⟨_, _, accepted⟩ := gives
  have kind := isNumber_of_read? accepted
  rw [first] at second
  cases second
  rw [misleads.1] at kind
  cases kind

end OptionText

end WaveHazard
