import Manycore.Config.Override
import Manycore.Proofs.Stateful

/-! # Refused arguments

Arguments that are numbers are read one after the other, and the first that cannot be read is
refused. The settings of those before it have been made by then, and stay; nothing else changes.
-/

namespace Manycore.Config

open Stateful

/-- An argument that is read as a number. -/
inductive NumberArgument where
  | word (name : String) (setting : WordSetting)
  | usageFraction

namespace NumberArgument

variable {args : Assignments} {a : NumberArgument} {before : List NumberArgument} {c c' : Config}
  {e : ConfigError}

def name : NumberArgument → String
  | word name _ => name
  | usageFraction => "usage_fraction"

/-- What a text makes of a configuration, if it can be read. -/
def change? : NumberArgument → String → Option (Config → Config)
  | word _ setting, text => (readWord? text).map fun w c => setting.set c w
  | usageFraction, text => (Binary64.read? text).map fun x c =>
    { c with machine := { c.machine with usageFraction := x } }

/-- Why a text is refused. -/
def refusal : NumberArgument → String → ConfigError
  | word name _, text => .notAnInteger name text
  | usageFraction, text => .notANumber "usage_fraction" text

/-- All of them, in the order in which they are read. -/
def all : List NumberArgument :=
  WordSetting.argumentNames.map (fun (name, setting) => word name setting) ++ [usageFraction]

/-- The argument is not given, or can be read. -/
def IsRead (args : Assignments) (a : NumberArgument) : Prop :=
  ∀ text, args.lookup a.name = some text → (a.change? text).isSome = true

/-- The argument is given and cannot be read, for which the error is told. -/
def IsRefused (args : Assignments) (a : NumberArgument) (e : ConfigError) : Prop :=
  ∃ text, args.lookup a.name = some text ∧ a.change? text = none ∧ e = a.refusal text

/-- The configuration with the setting of an argument, if it is given and can be read. -/
def given (args : Assignments) (c : Config) (a : NumberArgument) : Config :=
  match (args.lookup a.name).bind a.change? with
  | some change => change c
  | none => c

/-- Read an argument, and make its setting. -/
def override (args : Assignments) (a : NumberArgument) : Overriding Unit :=
  match args.lookup a.name with
  | none => pure ()
  | some text =>
    match a.change? text with
    | some change => modify change
    | none => throw (a.refusal text)

theorem override_word (args : Assignments) (name : String) (setting : WordSetting) :
    override args (word name setting) = overrideWord args name setting := by
  unfold override overrideWord
  simp only [NumberArgument.name]
  cases args.lookup name with
  | none => rfl
  | some text =>
      simp only [change?]
      cases readWord? text <;> rfl

theorem override_usageFraction (args : Assignments) :
    override args usageFraction = overrideFraction args := by
  unfold override overrideFraction
  simp only [NumberArgument.name]
  cases args.lookup "usage_fraction" with
  | none => rfl
  | some text =>
      simp only [change?]
      cases Binary64.read? text <;> rfl

theorem succeeds_override_iff {u : Unit} :
    Succeeds (override args a) c u c' ↔ a.IsRead args ∧ c' = given args c a := by
  unfold Succeeds override IsRead given
  cases args.lookup a.name with
  | none => simp [outcome_pure, eq_comm (a := c')]
  | some text =>
      cases hchange : a.change? text with
      | none => simp [hchange, outcome_throw]
      | some change => simp [hchange, outcome_modify, eq_comm (a := c')]

theorem outcome_override_eq_error_iff :
    outcome (override args a) c = (.error e, c') ↔ a.IsRefused args e ∧ c' = c := by
  unfold override IsRefused
  cases args.lookup a.name with
  | none => simp [outcome_pure]
  | some text =>
      cases hchange : a.change? text with
      | none => simp [hchange, outcome_throw, eq_comm (a := e), eq_comm (a := c')]
      | some change => simp [hchange, outcome_modify]

theorem given_of_lookup_eq_none (h : args.lookup a.name = none) : given args c a = c := by
  simp [given, h]

/-- Reading the arguments fails where reading the numbers fails. -/
theorem withArguments_eq_error_iff :
    withArguments c args = (.error e, c')
      ↔ outcome (forM all (override args)) c = (.error e, c') := by
  have hall : forM all (override args) = (do
      forM WordSetting.argumentNames fun x => overrideWord args x.1 x.2
      overrideFraction args) := by
    unfold all
    rw [List.forM_append, List.forM_map]
    simp [override_word, override_usageFraction]
  show outcome (applyArguments args) c = _ ↔ _
  unfold applyArguments
  -- The arguments behind the numbers are texts, which are taken as they are.
  rw [hall]
  simp [outcome_bind_eq_error_iff, outcome_modify]

theorem succeeds_forM_override_iff {as : List NumberArgument} :
    Succeeds (forM as (override args)) c ⟨⟩ c'
      ↔ (∀ a ∈ as, a.IsRead args) ∧ c' = as.foldl (given args) c :=
  succeeds_forM_iff fun _ _ _ => succeeds_override_iff

/-- The arguments before one are read, and the configuration with their settings is left. -/
structure StopsAt (args : Assignments) (c : Config) (before : List NumberArgument)
    (a : NumberArgument) (e : ConfigError) (c' : Config) : Prop where
  read : ∀ b ∈ before, b.IsRead args
  refused : a.IsRefused args e
  left : c' = before.foldl (given args) c

theorem withArguments_eq_error_iff_stopsAt : withArguments c args = (.error e, c')
    ↔ ∃ before a after, all = before ++ a :: after ∧ StopsAt args c before a e c' := by
  rw [withArguments_eq_error_iff, outcome_forM_eq_error_iff]
  constructor
  · rintro ⟨before, a, after, mid, hall, hread, hfail⟩
    have ⟨hbefore, hmid⟩ := succeeds_forM_override_iff.mp hread
    have ⟨hrefused, hleft⟩ := outcome_override_eq_error_iff.mp hfail
    exact ⟨before, a, after, hall, hbefore, hrefused, hleft.trans hmid⟩
  · rintro ⟨before, a, after, hall, hstop⟩
    exact ⟨before, a, after, c', hall, succeeds_forM_override_iff.mpr ⟨hstop.read, hstop.left⟩,
      outcome_override_eq_error_iff.mpr ⟨hstop.refused, rfl⟩⟩

theorem kept_of_change? {text : String} {change : Config → Config}
    (h : a.change? text = some change) :
    (change c).output = c.output ∧ (change c).logging = c.logging := by
  cases a with
  | word name setting =>
      obtain ⟨w, -, rfl⟩ := Option.map_eq_some_iff.mp h
      cases setting <;> exact ⟨rfl, rfl⟩
  | usageFraction =>
      obtain ⟨x, -, rfl⟩ := Option.map_eq_some_iff.mp h
      exact ⟨rfl, rfl⟩

theorem kept_of_given (args : Assignments) (c : Config) (a : NumberArgument) :
    (given args c a).output = c.output ∧ (given args c a).logging = c.logging := by
  unfold given
  split
  · rename_i change hchange
    obtain ⟨text, -, hchange⟩ := Option.bind_eq_some_iff.mp hchange
    exact kept_of_change? hchange
  · exact ⟨rfl, rfl⟩

theorem kept_of_foldl_given {as : List NumberArgument} :
    (as.foldl (given args) c).output = c.output
      ∧ (as.foldl (given args) c).logging = c.logging := by
  induction as generalizing c with
  | nil => exact ⟨rfl, rfl⟩
  | cons a as ih =>
      have hgiven := kept_of_given args c a
      exact ⟨ih.1.trans hgiven.1, ih.2.trans hgiven.2⟩

theorem foldl_given_of_lookup_eq_none {as : List NumberArgument}
    (h : ∀ a ∈ as, args.lookup a.name = none) : as.foldl (given args) c = c := by
  induction as with
  | nil => rfl
  | cons a as ih =>
      rw [List.forall_mem_cons] at h
      rw [List.foldl_cons, given_of_lookup_eq_none h.1, ih h.2]

end NumberArgument

open NumberArgument

/-- Arguments are refused at the first number that is given and cannot be read. What is left is the
configuration with the settings of the numbers before it that are given, so the configuration
itself if there are none; in any case where and what to write and to log is as it was. -/
theorem withArguments_stops {c c' : Config} {args : Assignments} {e : ConfigError}
    (h : withArguments c args = (.error e, c')) :
    ∃ before a after, NumberArgument.all = before ++ a :: after ∧ StopsAt args c before a e c'
      ∧ ((∀ b ∈ before, args.lookup b.name = none) → c' = c)
      ∧ c'.output = c.output ∧ c'.logging = c.logging := by
  obtain ⟨before, a, after, hall, hstop⟩ := withArguments_eq_error_iff_stopsAt.mp h
  have hleft := hstop.left
  refine ⟨before, a, after, hall, hstop, fun hnone => ?_, ?_⟩
  · rw [hleft, foldl_given_of_lookup_eq_none hnone]
  · rw [hleft]
    exact kept_of_foldl_given

theorem withArguments_lots :
    withArguments .standard [("keyspace_width", "16"), ("dtcm_per_core", "lots")]
      = (.error (.notAnInteger "dtcm_per_core" "lots"),
        { Config.standard with keys := { Config.standard.keys with width := 16 } }) := rfl

theorem withArguments_stops_at_dataMemory :
    let args := [("keyspace_width", "16"), ("dtcm_per_core", "lots")]
    let e := ConfigError.notAnInteger "dtcm_per_core" "lots"
    let c' := (withArguments .standard args).2
    withArguments .standard args = (.error e, c')
      ∧ ∃ before a after, NumberArgument.all = before ++ a :: after
        ∧ StopsAt args .standard before a e c'
        ∧ ((∀ b ∈ before, args.lookup b.name = none) → c' = .standard)
        ∧ c'.output = Config.standard.output ∧ c'.logging = Config.standard.logging :=
  ⟨withArguments_lots, withArguments_stops withArguments_lots⟩

/-- Arguments that are refused can leave a configuration that is not the one they were given. -/
theorem not_forall_refused_left_eq : ¬ ∀ (c c' : Config) (args : Assignments) (e : ConfigError),
    withArguments c args = (.error e, c') → c' = c := by
  intro hall
  have hleft := hall _ _ _ _ withArguments_lots
  have hwidth : (16 : UInt32) = 32 := congrArg (·.keys.width) hleft
  cases hwidth

end Manycore.Config
