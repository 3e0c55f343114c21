import Mathlib.Data.List.Induction
import Mathlib.Data.List.Nodup
import Mathlib.Data.List.Perm.Basic
import WaveHazard.Pass.CoalesceDelays
import WaveHazard.Pass.InsertWaits
import WaveHazard.Proofs.OptionTexts
import WaveHazard.Proofs.Outcome

/-! # The values of options

The last text that gives an option a value decides, and the default where there is none. There is
one exception: a number that is named in the bare form behind these texts becomes a flag, and the
pass that asks for the number ends with a fault. Otherwise every option has a value of its own kind,
which the pass accepts or refuses.
-/

namespace WaveHazard

/-- Some text is right, and no text behind it gives the option a value. -/
def LastText (pass : String) (spec : OptionSpec) (right : String → Prop) (texts : List String) :
    Prop :=
  ∃ before text after, texts = before ++ text :: after ∧ right text ∧
    ∀ later ∈ after, ∀ other, ¬ Gives pass spec later other

/-- An option has the value that the last text gives it, or its default. -/
def Settles (pass : String) (spec : OptionSpec) (texts : List String) (value : OptionValue) :
    Prop :=
  LastText pass spec (Gives pass spec · value) texts ∨
    (∀ text ∈ texts, ∀ other, ¬ Gives pass spec text other) ∧ value = spec.default

/-- A number is named in the bare form behind every text that gives it a value. -/
def Misled (pass : String) (spec : OptionSpec) (texts : List String) : Prop :=
  LastText pass spec (Misleads pass spec) texts

section

variable {pass text : String} {specs : List OptionSpec} {spec : OptionSpec} {value : OptionValue}
  {texts : List String}

/-! ## The last text -/

/-- The last text is right, or it gives no value and the last one before it is right. -/
theorem last_concat {right : String → Prop} :
    LastText pass spec right (texts ++ [text]) ↔
      right text ∨ (∀ other, ¬ Gives pass spec text other) ∧ LastText pass spec right texts := by
  constructor
  · rintro ⟨before, found, after, split, holds, silent⟩
    rcases List.eq_nil_or_concat after with rfl | ⟨between, last, rfl⟩
    · obtain ⟨-, same⟩ := List.append_inj' split rfl
      cases same
      exact .inl holds
    · rw [List.concat_eq_append, ← List.cons_append, ← List.append_assoc] at split
      obtain ⟨rfl, same⟩ := List.append_inj' split rfl
      cases same
      obtain ⟨silent, quiet⟩ := List.forall_mem_append.mp (List.concat_eq_append ▸ silent)
      exact .inr ⟨quiet text List.mem_cons_self, before, found, between, rfl, holds, silent⟩
  · rintro (holds | ⟨quiet, before, found, after, rfl, holds, silent⟩)
    · exact ⟨texts, text, [], rfl, holds, fun _ absent => absurd absent List.not_mem_nil⟩
    · refine ⟨before, found, after ++ [text], by simp, holds, ?_⟩
      exact List.forall_mem_append.mpr ⟨silent, List.forall_mem_singleton.mpr quiet⟩

theorem not_last_nil {right : String → Prop} : ¬ LastText pass spec right [] := by
  rintro ⟨before, found, after, split, _⟩
  exact absurd split (List.append_ne_nil_of_right_ne_nil before (List.cons_ne_nil _ _)).symm

namespace OptionTable

variable {table : OptionTable} {name other : String}

/-- The names of the options that have a value. -/
def names (table : OptionTable) : List String := table.map Prod.fst

/-- Forgetting the value of an option leaves the values of the others. -/
theorem get?_filter : get? (table.filter (fun given => given.1 != name)) other =
    if other = name then none else table.get? other := by
  unfold get?
  induction table with
  | nil => simp
  | cons first rest ih =>
      by_cases dropped : first.1 = name
      · rw [List.filter_cons_of_neg (by simpa using dropped), ih, List.lookup_cons]
        split
        · rfl
        · next different =>
            rw [beq_false_of_ne (dropped ▸ different)]
      · rw [List.filter_cons_of_pos (by simpa using dropped), List.lookup_cons, List.lookup_cons,
          ih]
        split
        · next found =>
            rw [if_neg (beq_iff_eq.mp found ▸ dropped)]
        · rfl

/-- The value that was put last is the one that is found, and the others stay. -/
theorem get?_put : (table.put name value).get? other =
    if other = name then some value else table.get? other := by
  have kept : (table.put name value).get? other =
      (get? (table.filter (fun given => given.1 != name)) other).or
        (List.lookup other [(name, value)]) := List.lookup_append
  rw [kept, get?_filter, List.lookup_cons]
  split
  · next same =>
      rw [beq_iff_eq.mpr same]
      rfl
  · next different =>
      rw [beq_false_of_ne different, List.lookup_nil, Option.or_none]

/-- An option has a value exactly when it has a name in the table. -/
theorem isSome_get?_iff : (table.get? name).isSome ↔ name ∈ table.names := by
  rw [get?, List.lookup_isSome_iff, names, List.mem_map]
  simp only [beq_iff_eq]
  exact exists_congr fun _ => and_congr_right fun _ => eq_comm

/-- An option that gets a value moves to the end of the table. -/
theorem names_put : (table.put name value).names = table.names.filter (· != name) ++ [name] := by
  rw [names, put, List.map_append, names, List.filter_map]
  rfl

/-- Every option has one value at most, and none has one that is not declared. -/
structure Fits (specs : List OptionSpec) (table : OptionTable) : Prop where
  once : table.names.Nodup
  declared : ∀ name ∈ table.names, name ∈ specs.map (·.name)

/-- A declared option may get a value. -/
theorem Fits.put (fits : Fits specs table) (declared : name ∈ specs.map (·.name)) :
    Fits specs (table.put name value) where
  once := by
    rw [names_put]
    refine List.nodup_append.mpr ⟨fits.once.filter _, List.nodup_singleton name, ?_⟩
    rintro kept member _ added rfl
    rw [List.mem_singleton.mp added] at member
    simp at member
  declared := by
    rw [names_put]
    refine List.forall_mem_append.mpr ⟨?_, List.forall_mem_singleton.mpr declared⟩
    exact fun kept member => fits.declared kept (List.mem_of_mem_filter member)

/-- A given value takes the place of any earlier one. -/
theorem ofTexts_concat (readings : List OptionText) (reading : OptionText) :
    ofTexts (readings ++ [reading]) = match reading with
      | .given name value => (ofTexts readings).put name value
      | _ => ofTexts readings := by
  unfold ofTexts
  cases reading <;> exact List.foldl_concat _ _ _ _

/-- Whatever texts there are, only declared options get values, each one at most. -/
theorem fits_ofTexts (texts : List String) :
    Fits specs (ofTexts (texts.map (OptionText.read pass specs))) := by
  induction texts using List.reverseRecOn with
  | nil => exact ⟨List.nodup_nil, fun _ absent => absurd absent List.not_mem_nil⟩
  | append_singleton texts text ih =>
      rw [List.map_append, List.map_singleton, ofTexts_concat]
      split
      · next name value given =>
          obtain ⟨spec, listed, rfl, _⟩ := OptionText.of_read_given given
          exact ih.put (List.mem_map_of_mem listed)
      · exact ih

/-- Defaults leave values that were given. -/
theorem get?_withDefaults_of_given (given : table.get? name = some value) :
    (table.withDefaults specs).get? name = some value := by
  unfold withDefaults
  induction specs generalizing table with
  | nil => exact given
  | cons first rest ih =>
      rw [List.foldl_cons]
      apply ih
      split
      · exact given
      · next absent =>
          rw [get?_put, if_neg, given]
          rintro rfl
          rw [given] at absent
          exact absent rfl

/-- An option that is declared has the value that was given, or its default. -/
theorem get?_withDefaults (once : (specs.map (·.name)).Nodup) (listed : spec ∈ specs) :
    (table.withDefaults specs).get? spec.name =
      some ((table.get? spec.name).getD spec.default) := by
  cases given : table.get? spec.name with
  | some value => exact get?_withDefaults_of_given given
  | none =>
      rw [Option.getD_none]
      unfold withDefaults
      induction specs generalizing table with
      | nil => exact absurd listed List.not_mem_nil
      | cons first rest ih =>
          rw [List.map_cons, List.nodup_cons] at once
          rw [List.foldl_cons]
          rcases List.mem_cons.mp listed with rfl | later
          · apply get?_withDefaults_of_given
            rw [given, if_neg (by decide), get?_put, if_pos rfl]
          · have different : spec.name ≠ first.name :=
              fun same => once.1 (same ▸ List.mem_map_of_mem later)
            apply ih once.2 later
            split
            · exact given
            · rw [get?_put, if_neg different, given]

/-- Filling in defaults gives values to declared options only. -/
theorem Fits.withDefaults {list : List OptionSpec} (inside : ∀ spec ∈ list, spec ∈ specs)
    (fits : Fits specs table) : Fits specs (table.withDefaults list) := by
  unfold OptionTable.withDefaults
  induction list generalizing table with
  | nil => exact fits
  | cons first rest ih =>
      obtain ⟨listed, inside⟩ := List.forall_mem_cons.mp inside
      rw [List.foldl_cons]
      apply ih inside
      split
      · exact fits
      · exact fits.put (List.mem_map_of_mem listed)

/-- The options that have a value are the declared ones. -/
theorem names_read_perm (declares : Declares pass specs) (texts : List String)
    (journal : Journal) :
    (OptionTable.read pass specs texts journal).1.names.Perm (specs.map (·.name)) := by
  have fits := (@fits_ofTexts pass specs texts).withDefaults fun _ => id
  rw [OptionTable.read, List.perm_ext_iff_of_nodup fits.once declares.once]
  intro name
  refine ⟨fits.declared name, fun declared => ?_⟩
  obtain ⟨spec, listed, rfl⟩ := List.mem_map.mp declared
  rw [← isSome_get?_iff, get?_withDefaults declares.once listed]
  rfl

/-- A text that says nothing about an option leaves its value. -/
theorem get?_ofTexts_of_silent {readings : List OptionText} {reading : OptionText}
    (silent : ∀ value, reading ≠ .given name value) :
    (ofTexts (readings ++ [reading])).get? name = (ofTexts readings).get? name := by
  rw [ofTexts_concat]
  split
  · next other value =>
      have different : name ≠ other := by
        rintro rfl
        exact silent value rfl
      rw [get?_put, if_neg different]
  · rfl

/-- What was given is the last value that a text gives, or the flag that a number was named as. -/
theorem given_or_misled (declares : Declares pass specs) (listed : spec ∈ specs)
    (texts : List String) :
    (¬ Misled pass spec texts ∧ ∃ value, LastText pass spec (Gives pass spec · value) texts ∧
        (ofTexts (texts.map (OptionText.read pass specs))).get? spec.name = some value) ∨
      (Misled pass spec texts ∧
        (ofTexts (texts.map (OptionText.read pass specs))).get? spec.name = some (.flag true)) ∨
      (¬ Misled pass spec texts ∧ (∀ text ∈ texts, ∀ other, ¬ Gives pass spec text other) ∧
        (ofTexts (texts.map (OptionText.read pass specs))).get? spec.name = none) := by
  induction texts using List.reverseRecOn with
  | nil => exact .inr (.inr ⟨not_last_nil, fun _ absent => absurd absent List.not_mem_nil, rfl⟩)
  | append_singleton texts text ih =>
      rw [List.map_append, List.map_singleton]
      by_cases gives : ∃ value, Gives pass spec text value
      · obtain ⟨value, gives⟩ := gives
        refine .inl ⟨?_, value, last_concat.mpr (.inl gives), ?_⟩
        · rw [Misled, last_concat]
          rintro (misleads | ⟨silent, _⟩)
          · exact OptionText.not_gives_of_misleads declares listed misleads gives
          · exact silent value gives
        · rw [ofTexts_concat, (OptionText.read_eq_given_iff declares listed).mpr (.inl gives)]
          exact get?_put.trans (if_pos rfl)
      have silent (value : OptionValue) : ¬ Gives pass spec text value :=
        fun given => gives ⟨value, given⟩
      by_cases misleads : Misleads pass spec text
      · refine .inr (.inl ⟨last_concat.mpr (.inl misleads), ?_⟩)
        rw [ofTexts_concat,
          (OptionText.read_eq_given_iff declares listed).mpr (.inr ⟨misleads, rfl⟩)]
        exact get?_put.trans (if_pos rfl)
      · have unread (value : OptionValue) :
            OptionText.read pass specs text ≠ .given spec.name value := by
          intro given
          rcases (OptionText.read_eq_given_iff declares listed).mp given with given | ⟨given, _⟩
          · exact silent value given
          · exact misleads given
        have same : Misled pass spec (texts ++ [text]) ↔ Misled pass spec texts := by
          rw [Misled, last_concat, or_iff_right misleads, and_iff_right silent, Misled]
        rw [get?_ofTexts_of_silent unread, same]
        refine ih.imp ?_ (.imp id ?_)
        · rintro ⟨fine, value, last, given⟩
          exact ⟨fine, value, last_concat.mpr (.inr ⟨silent, last⟩), given⟩
        · rintro ⟨fine, quiet, absent⟩
          exact ⟨fine, List.forall_mem_append.mpr ⟨quiet, List.forall_mem_singleton.mpr silent⟩,
            absent⟩

/-- An option has the value it settles at, unless it is misled. -/
theorem get?_read (declares : Declares pass specs) (listed : spec ∈ specs) (texts : List String)
    (journal : Journal) : ∃ value,
    (OptionTable.read pass specs texts journal).1.get? spec.name = some value ∧
      (¬ Misled pass spec texts ∧ Settles pass spec texts value ∨
        Misled pass spec texts ∧ value = .flag true) := by
  refine ⟨_, get?_withDefaults declares.once listed, ?_⟩
  rcases given_or_misled declares listed texts with
    ⟨fine, value, last, given⟩ | ⟨misled, given⟩ | ⟨fine, silent, absent⟩
  · rw [given]
    exact .inl ⟨fine, .inl last⟩
  · rw [given]
    exact .inr ⟨misled, rfl⟩
  · rw [absent]
    exact .inl ⟨fine, .inr ⟨silent, rfl⟩⟩

end OptionTable

/-! ## What an option settles at -/

/-- A further text settles the value, or leaves it as the texts before have settled it. -/
theorem settles_concat : Settles pass spec (texts ++ [text]) value ↔
    Gives pass spec text value ∨
      (∀ other, ¬ Gives pass spec text other) ∧ Settles pass spec texts value := by
  simp only [Settles, last_concat, List.forall_mem_append, List.forall_mem_singleton]
  tauto

/-- Texts settle an option at one value only. -/
theorem settles_unique (declares : Declares pass specs) (listed : spec ∈ specs)
    {other : OptionValue} (left : Settles pass spec texts value)
    (right : Settles pass spec texts other) : value = other := by
  induction texts using List.reverseRecOn with
  | nil =>
      obtain ⟨-, rfl⟩ := left.resolve_left not_last_nil
      obtain ⟨-, rfl⟩ := right.resolve_left not_last_nil
      rfl
  | append_singleton texts text ih =>
      rcases settles_concat.mp left with gives | ⟨silent, left⟩
      · rcases settles_concat.mp right with also | ⟨silent, _⟩
        · exact OptionText.gives_unique declares listed gives also
        · exact absurd gives (silent value)
      · rcases settles_concat.mp right with gives | ⟨_, right⟩
        · exact absurd gives (silent other)
        · exact ih left right

/-- Only numbers are misled. -/
theorem isNumber_of_misled (misled : Misled pass spec texts) :
    spec.default.isNumber = true := by
  obtain ⟨_, _, _, _, ⟨number, _⟩, _⟩ := misled
  exact number

/-- An option settles at a value of its own kind. -/
theorem isNumber_of_settles (settles : Settles pass spec texts value) :
    value.isNumber = spec.default.isNumber := by
  rcases settles with ⟨_, _, _, _, ⟨_, _, accepted⟩, _⟩ | ⟨_, rfl⟩
  · exact isNumber_of_read? accepted
  · rfl

/-! ## Preparing a pass -/

/-- A pass is prepared from the table of its options. Values of the declared kinds are accepted or
refused, and a flag in the place of a number is a fault. -/
structure Pass.Configures {α : Type} (pass : Pass Unit)
    (configure : OptionTable → Except Stop α) : Prop where
  declares : Declares pass.name pass.options
  prepares : ∃ visit, pass.Prepares configure visit
  accepts : ∀ table : OptionTable,
    (∀ spec ∈ pass.options, ∃ value, table.get? spec.name = some value ∧
      value.isNumber = spec.default.isNumber) →
    (∃ config, configure table = .ok config) ∨
      ∃ diagnostic, diagnostic.kind = .invalidOption ∧
        configure table = .error (.refused diagnostic)
  faults : ∀ table : OptionTable, ∀ spec ∈ pass.options, spec.default.isNumber = true →
    table.get? spec.name = some (.flag true) →
      configure table = .error (.faulted (.expectedNumber "true"))

/-- A value that is no number is a flag. -/
theorem exists_flag {found : Option OptionValue}
    (kind : ∃ value, found = some value ∧ value.isNumber = false) :
    ∃ given, found = some (.flag given) := by
  obtain ⟨value, rfl, kind⟩ := kind
  cases value with
  | flag given => exact ⟨given, rfl⟩
  | number given => cases kind

/-- A value that is no flag is a number. -/
theorem exists_number {found : Option OptionValue}
    (kind : ∃ value, found = some value ∧ value.isNumber = true) :
    ∃ given, found = some (.number given) := by
  obtain ⟨value, rfl, kind⟩ := kind
  cases value with
  | flag given => cases kind
  | number given => exact ⟨given, rfl⟩

/-- Inserting waits is configured by a number and a flag. -/
theorem InsertWaits.configures : InsertWaits.pass.Configures configure where
  declares := ⟨by decide, by decide, by decide⟩
  prepares := ⟨_, fun _ => rfl⟩
  accepts := by
    intro table kinds
    obtain ⟨force, forced⟩ := exists_flag (kinds _ List.mem_cons_self)
    obtain ⟨visits, limited⟩ := exists_number (kinds _ (List.mem_cons_of_mem _ List.mem_cons_self))
    unfold configure
    dsimp only at forced limited ⊢
    rw [forced, limited, Option.getD_some, Option.getD_some]
    cases reading : visitLimit? (.number visits) with
    | error fault => cases reading
    | ok limit =>
        cases limit with
        | none => exact .inr ⟨_, rfl, rfl⟩
        | some maxVisits => exact .inl ⟨_, rfl⟩
  faults := by
    intro table spec listed number misled
    obtain rfl : spec = ⟨"max-visits", _, .number 256⟩ := by
      rcases List.mem_pair.mp listed with rfl | rfl
      · cases number
      · rfl
    unfold configure
    dsimp only at misled ⊢
    rw [misled]
    rfl

/-- Coalescing delays is configured by a number, which is refused above the largest skip. -/
theorem CoalesceDelays.configures : CoalesceDelays.pass.Configures configure where
  declares := ⟨by decide, by decide, by decide⟩
  prepares := ⟨_, fun _ => rfl⟩
  accepts := by
    intro table kinds
    obtain ⟨skip, limited⟩ := exists_number (kinds _ List.mem_cons_self)
    unfold configure
    dsimp only at limited ⊢
    rw [limited, Option.getD_some]
    cases reading : (OptionValue.number skip).asNatural? with
    | error fault => cases reading
    | ok natural =>
        dsimp only
        cases natural.filter (· ≤ largestSkip) with
        | none => exact .inr ⟨_, rfl, rfl⟩
        | some maxSkip => exact .inl ⟨_, rfl⟩
  faults := by
    intro table spec listed number misled
    obtain rfl := List.mem_singleton.mp listed
    unfold configure
    dsimp only at misled ⊢
    rw [misled]
    rfl

namespace Pass.Configures

variable {α : Type} {configure : OptionTable → Except Stop α} {pass : Pass Unit}
  {before after : Session Unit} {table : OptionTable}

/-- Every declared option has exactly one value. -/
theorem names_perm (configures : pass.Configures configure)
    (read : (pass.readOptions texts).run before = (.ok table, after)) :
    table.names.Perm (pass.options.map (·.name)) := by
  cases read
  exact OptionTable.names_read_perm configures.declares texts before.journal

/-- A declared option has the value that the texts settle, unless they mislead: then it has the flag
of the bare form. -/
theorem get?_eq_some (configures : pass.Configures configure)
    (read : (pass.readOptions texts).run before = (.ok table, after))
    (listed : spec ∈ pass.options) :
    ∃ value, table.get? spec.name = some value ∧
      (¬ Misled pass.name spec texts ∧ Settles pass.name spec texts value ∨
        Misled pass.name spec texts ∧ value = .flag true) := by
  cases read
  exact OptionTable.get?_read configures.declares listed texts before.journal

/-- An option that is not misled has the one value it settles at, which is of its own kind. -/
theorem settled (configures : pass.Configures configure)
    (read : (pass.readOptions texts).run before = (.ok table, after))
    (listed : spec ∈ pass.options) (fine : ¬ Misled pass.name spec texts) :
    ∃ value, table.get? spec.name = some value ∧ value.isNumber = spec.default.isNumber ∧
      ∀ other, Settles pass.name spec texts other ↔ other = value := by
  obtain ⟨value, given, outcome⟩ := configures.get?_eq_some read listed
  obtain ⟨-, settles⟩ := outcome.resolve_right fun misled => fine misled.1
  refine ⟨value, given, isNumber_of_settles settles, fun other => ?_⟩
  constructor
  · exact fun also => settles_unique configures.declares listed also settles
  · rintro rfl
    exact settles

/-- A number that is misled is a flag. -/
theorem misled (configures : pass.Configures configure)
    (read : (pass.readOptions texts).run before = (.ok table, after))
    (listed : spec ∈ pass.options) (misled : Misled pass.name spec texts) :
    table.get? spec.name = some (.flag true) := by
  obtain ⟨value, given, outcome⟩ := configures.get?_eq_some read listed
  obtain ⟨-, rfl⟩ := outcome.resolve_left fun fine => fine.1 misled
  exact given

/-- Options that are not misled are accepted or refused. -/
theorem accepted_or_refused (configures : pass.Configures configure)
    (read : (pass.readOptions texts).run before = (.ok table, after))
    (fine : ∀ spec ∈ pass.options, ¬ Misled pass.name spec texts) :
    (∃ visitor, (pass.prepare texts).run before = (.ok visitor, after)) ∨
      ∃ diagnostic, diagnostic.kind = .invalidOption ∧
        (pass.prepare texts).run before = (.error (.refused diagnostic), after) := by
  have kinds (spec : OptionSpec) (listed : spec ∈ pass.options) :
      ∃ value, table.get? spec.name = some value ∧ value.isNumber = spec.default.isNumber := by
    obtain ⟨value, given, kind, _⟩ := configures.settled read listed (fine spec listed)
    exact ⟨value, given, kind⟩
  obtain ⟨visit, prepares⟩ := configures.prepares
  rw [prepares.run read]
  rcases configures.accepts table kinds with ⟨config, configured⟩ | ⟨diagnostic, kind, refused⟩
  · rw [configured]
    exact .inl ⟨_, rfl⟩
  · rw [refused]
    exact .inr ⟨diagnostic, kind, rfl⟩

/-- Preparing the pass is a fault when one of its numbers is misled. -/
theorem fault_of_misled (configures : pass.Configures configure)
    (read : (pass.readOptions texts).run before = (.ok table, after))
    (listed : spec ∈ pass.options) (misled : Misled pass.name spec texts) :
    (pass.prepare texts).run before = (.error (.faulted (.expectedNumber "true")), after) := by
  have given := configures.misled read listed misled
  obtain ⟨visit, prepares⟩ := configures.prepares
  rw [prepares.run read,
    configures.faults table spec listed (isNumber_of_misled misled) given]
  rfl

end Pass.Configures

end

/-- The options of the passes that have some. The declared options, and no others, have a value.
Each has the value of the last text that gives it one, or its default, and the value is of its own
kind; then the pass is prepared, or its options are refused. The exception is a number that is named
in the bare form behind all texts that give it a value: it becomes a flag, and preparing the pass is
a fault. -/
theorem options_settle_or_mislead {pass : Pass Unit}
    (configurable : pass ∈ [InsertWaits.pass, CoalesceDelays.pass]) (texts : List String)
    (before : Session Unit) :
    ∃ table after, (pass.readOptions texts).run before = (.ok table, after) ∧
      table.names.Perm (pass.options.map (·.name)) ∧
      (∀ spec ∈ pass.options, ¬ Misled pass.name spec texts →
        ∃ value, table.get? spec.name = some value ∧ value.isNumber = spec.default.isNumber ∧
          ∀ other, Settles pass.name spec texts other ↔ other = value) ∧
      ((∀ spec ∈ pass.options, ¬ Misled pass.name spec texts) →
        (∃ visitor, (pass.prepare texts).run before = (.ok visitor, after)) ∨
          ∃ diagnostic, diagnostic.kind = .invalidOption ∧
            (pass.prepare texts).run before = (.error (.refused diagnostic), after)) ∧
      ∀ spec ∈ pass.options, Misled pass.name spec texts →
        table.get? spec.name = some (.flag true) ∧
          (pass.prepare texts).run before =
            (.error (.faulted (.expectedNumber "true")), after) := by
  obtain ⟨α, configure, configures⟩ : ∃ (α : Type) (configure : OptionTable → Except Stop α),
      pass.Configures configure := by
    rcases List.mem_pair.mp configurable with rfl | rfl
    · exact ⟨_, _, InsertWaits.configures⟩
    · exact ⟨_, _, CoalesceDelays.configures⟩
  obtain ⟨table, after, read⟩ : ∃ table after,
      (pass.readOptions texts).run before = (.ok table, after) := ⟨_, _, rfl⟩
  refine ⟨table, after, read, configures.names_perm read, ?_, configures.accepted_or_refused read,
    ?_⟩
  · exact fun spec listed fine => configures.settled read listed fine
  · exact fun spec listed misled =>
      ⟨configures.misled read listed misled, configures.fault_of_misled read listed misled⟩

namespace InsertWaits

/-- The option that limits the visits of a block. -/
def visitsOption : OptionSpec where
  name := "max-visits"
  description := "number of visits of one block before the analysis aborts"
  default := .number 256

/-- The limit of visits is an option of the pass that inserts waits. -/
theorem visitsOption_listed : visitsOption ∈ options := List.mem_cons_of_mem _ List.mem_cons_self

/-- A session without a program. -/
def idle : Session Unit := { program := {}, journal := {}, data := () }

/-- The bare form, a value that ends at an equals sign, and one that is no number. -/
def mixedTexts : List String :=
  ["insert-waits:max-visits", "insert-waits:max-visits=7=8", "insert-waits:max-visits=many"]

/-- What follows a second equals sign is not read. -/
theorem seven_given : Gives name visitsOption "insert-waits:max-visits=7=8" (.number 7) :=
  ⟨"7", @Carries.cut name "max-visits" "7" "8" (by decide), by decide⟩

/-- A text whose value is no number gives none. -/
theorem many_not_given (value : OptionValue) :
    ¬ Gives name visitsOption "insert-waits:max-visits=many" value := by
  intro gives
  have unread : OptionText.read name options "insert-waits:max-visits=many" =
      .invalid "max-visits" "many" := by decide
  have given : OptionText.read name options "insert-waits:max-visits=many" =
      .given "max-visits" value :=
    (OptionText.read_eq_given_iff configures.declares visitsOption_listed).mpr (.inl gives)
  rw [unread] at given
  cases given

/-- The bare form misleads no more once a text behind it gives a value. -/
theorem mixedTexts_not_misled : ¬ Misled name visitsOption mixedTexts := by
  have parts : mixedTexts = ["insert-waits:max-visits"] ++ ["insert-waits:max-visits=7=8"] ++
    ["insert-waits:max-visits=many"] := rfl
  rw [parts, Misled, last_concat, last_concat]
  rintro (⟨_, bare⟩ | ⟨_, ⟨_, bare⟩ | ⟨silent, _⟩⟩)
  · exact absurd bare (by decide)
  · exact absurd bare (by decide)
  · exact silent _ seven_given

/-- The last accepted number wins over an earlier bare form and a later text that is no number. -/
theorem mixed_texts_settle :
    pass ∈ [pass, CoalesceDelays.pass] ∧ ∃ table after,
      (pass.readOptions mixedTexts).run idle = (.ok table, after) ∧
        table.get? "max-visits" = some (.number 7) ∧
        ((∃ visitor, (pass.prepare mixedTexts).run idle = (.ok visitor, after)) ∨
          ∃ diagnostic, diagnostic.kind = .invalidOption ∧
            (pass.prepare mixedTexts).run idle = (.error (.refused diagnostic), after)) := by
  have fine : ∀ spec ∈ options, ¬ Misled name spec mixedTexts := by
    refine List.forall_mem_cons.mpr ⟨fun misled => ?_, List.forall_mem_singleton.mpr
      mixedTexts_not_misled⟩
    cases isNumber_of_misled misled
  obtain ⟨table, after, read, _, settled, prepared, _⟩ :=
    @options_settle_or_mislead pass List.mem_cons_self mixedTexts idle
  obtain ⟨value, given, _, only⟩ := settled visitsOption visitsOption_listed mixedTexts_not_misled
  have seven : Settles name visitsOption mixedTexts (.number 7) := .inl
    ⟨["insert-waits:max-visits"], _, ["insert-waits:max-visits=many"], rfl, seven_given,
      List.forall_mem_singleton.mpr many_not_given⟩
  obtain rfl := (only _).mp seven
  exact ⟨List.mem_cons_self, table, after, read, given, prepared fine⟩

/-- The bare form of a number should leave its default, but it is a fault. -/
theorem bare_number_faults :
    Settles name visitsOption ["insert-waits:max-visits"] (.number 256) ∧ ∃ table after,
      (pass.readOptions ["insert-waits:max-visits"]).run idle = (.ok table, after) ∧
        table.get? "max-visits" = some (.flag true) ∧
        (pass.prepare ["insert-waits:max-visits"]).run idle =
          (.error (.faulted (.expectedNumber "true")), after) := by
  have misleads : Misleads name visitsOption "insert-waits:max-visits" := ⟨rfl, rfl⟩
  have settles : Settles name visitsOption ["insert-waits:max-visits"] (.number 256) := by
    refine .inr ⟨List.forall_mem_singleton.mpr fun other => ?_, rfl⟩
    exact OptionText.not_gives_of_misleads configures.declares visitsOption_listed misleads
  have misled : Misled name visitsOption ["insert-waits:max-visits"] :=
    ⟨[], _, [], rfl, misleads, fun _ absent => absurd absent List.not_mem_nil⟩
  obtain ⟨table, after, read⟩ : ∃ table after,
      (pass.readOptions ["insert-waits:max-visits"]).run idle = (.ok table, after) := ⟨_, _, rfl⟩
  exact ⟨settles, table, after, read, configures.misled read visitsOption_listed misled,
    configures.fault_of_misled read visitsOption_listed misled⟩

end InsertWaits

end WaveHazard
