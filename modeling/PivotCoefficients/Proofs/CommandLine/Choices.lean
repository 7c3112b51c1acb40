import Mathlib.Data.List.Induction
import PivotCoefficients.Proofs.CommandLine.Phrases

/-!
# Choices of phrases

Taken in one after another, phrases are accepted exactly when they are
admissible, and they then choose what `choices` says.
-/
namespace PivotCoefficients.CommandLine

attribute [ext] Choices

variable {phrases : List Phrase} {p : Phrase}

/-- What a phrase must be to come after others. -/
structure Phrase.Follows (p : Phrase) (phrases : List Phrase) : Prop where
  spellable : p.IsSpellable
  value : ∀ o v, p.value? o = some v → IsValid v o ∧ phrases.filterMap (Phrase.value? o) = []
  strict : p = .switch .strict → .switch .strict ∉ phrases
  list : p = .switch .list → .switch .list ∉ phrases
  no_version : p ≠ .switch .version
  no_help : p ≠ .switch .help

theorem isAdmissible_nil : IsAdmissible [] where
  spellable := by simp
  valid := by simp
  value_once := by simp
  strict_once := by simp
  list_once := by simp
  no_version := by simp
  no_help := by simp

theorem count_append_singleton_le_one_iff {q : Phrase} :
    (phrases ++ [p]).count q ≤ 1 ↔ phrases.count q ≤ 1 ∧ (p = q → q ∉ phrases) := by
  rw [List.count_append, List.count_singleton]
  by_cases hpq : p = q
  · subst hpq
    have hmem : phrases.count p = 0 ↔ p ∉ phrases := List.count_eq_zero
    simp only [BEq.rfl, if_true, true_imp_iff, ← hmem]
    omega
  · simp [hpq]

theorem filterMap_value_append_singleton (o : ValueOption) :
    (phrases ++ [p]).filterMap (Phrase.value? o) =
      phrases.filterMap (Phrase.value? o) ++ (p.value? o).toList := by
  rw [List.filterMap_append]
  cases h : p.value? o <;> simp [h]

theorem isAdmissible_append_singleton_iff :
    IsAdmissible (phrases ++ [p]) ↔ IsAdmissible phrases ∧ p.Follows phrases := by
  constructor
  · intro h
    have hstrict := count_append_singleton_le_one_iff.mp h.strict_once
    have hlist := count_append_singleton_le_one_iff.mp h.list_once
    constructor
    · exact {
        spellable := fun q hq => h.spellable q (List.mem_append_left _ hq)
        valid := fun o v hv => h.valid o v (by
          rw [filterMap_value_append_singleton]
          exact List.mem_append_left _ hv)
        value_once := fun o => by
          have honce := h.value_once o
          rw [filterMap_value_append_singleton, List.length_append] at honce
          omega
        strict_once := hstrict.1
        list_once := hlist.1
        no_version := fun hmem => h.no_version (List.mem_append_left _ hmem)
        no_help := fun hmem => h.no_help (List.mem_append_left _ hmem) }
    · exact {
        spellable := h.spellable p (by simp)
        value := fun o v hv => by
          have honce := h.value_once o
          have hvalid := h.valid o v
          rw [filterMap_value_append_singleton, hv] at honce hvalid
          refine ⟨hvalid (by simp), List.length_eq_zero_iff.mp ?_⟩
          rw [List.length_append, Option.toList_some, List.length_singleton] at honce
          omega
        strict := hstrict.2
        list := hlist.2
        no_version := fun hp => h.no_version (by simp [hp])
        no_help := fun hp => h.no_help (by simp [hp]) }
  · rintro ⟨h, hp⟩
    exact {
      spellable := by simpa [or_imp, forall_and] using ⟨h.spellable, hp.spellable⟩
      valid := fun o v hv => by
        rw [filterMap_value_append_singleton, List.mem_append, Option.mem_toList] at hv
        exact hv.elim (h.valid o v) fun hv => (hp.value o v hv).1
      value_once := fun o => by
        rw [filterMap_value_append_singleton]
        cases hv : p.value? o with
        | none => simpa using h.value_once o
        | some v => simp [(hp.value o v hv).2]
      strict_once := count_append_singleton_le_one_iff.mpr ⟨h.strict_once, hp.strict⟩
      list_once := count_append_singleton_le_one_iff.mpr ⟨h.list_once, hp.list⟩
      no_version := by simpa using ⟨h.no_version, hp.no_version.symm⟩
      no_help := by simpa using ⟨h.no_help, hp.no_help.symm⟩ }

namespace Choices

variable {c c' : Choices}

theorem once_eq_ok_iff {name : String} {given : Bool} :
    once name given c = .ok c' ↔ given = false ∧ c' = c := by
  unfold once
  split <;> simp_all [eq_comm]

def isGiven (c : Choices) : ValueOption → Bool
  | .scenario => c.scenario.isSome
  | .target => c.target.isSome
  | .arrayName => c.arrayName.isSome
  | .comment => c.comment.isSome

def assign (c : Choices) (value : String) : ValueOption → Choices
  | .scenario => { c with scenario := (Scenario.ofName value).toOption }
  | .target => { c with target := (Target.ofName value).toOption }
  | .arrayName => { c with arrayName := some value }
  | .comment => { c with comment := some value }

theorem give_eq_ok_iff {o : ValueOption} {value : String} :
    c.give o value = .ok c' ↔
      IsValid value o ∧ c.isGiven o = false ∧ c' = c.assign value o := by
  cases o with
  | scenario =>
    cases hname : Scenario.ofName value with
    | ok s =>
      simp [give, IsValid, ← Scenario.ofName_eq_ok_iff, isGiven, assign, hname, once_eq_ok_iff,
        Except.toOption]
    | error e => simp [give, IsValid, ← Scenario.ofName_eq_ok_iff, hname]
  | target =>
    cases hname : Target.ofName value with
    | ok t =>
      simp [give, IsValid, ← Target.ofName_eq_ok_iff, isGiven, assign, hname, once_eq_ok_iff,
        Except.toOption]
    | error e => simp [give, IsValid, ← Target.ofName_eq_ok_iff, hname]
  | arrayName => simp [give, IsValid, isGiven, assign, once_eq_ok_iff]
  | comment => simp [give, IsValid, isGiven, assign, once_eq_ok_iff]

end Choices

theorem findSome?_value_eq_none_iff {o : ValueOption} :
    phrases.findSome? (Phrase.value? o) = none ↔ phrases.filterMap (Phrase.value? o) = [] := by
  rw [← List.head?_filterMap, List.head?_eq_none_iff]

theorem IsAdmissible.isValid_of_findSome? (h : IsAdmissible phrases) {o : ValueOption}
    {v : String} (hv : phrases.findSome? (Phrase.value? o) = some v) : IsValid v o := by
  refine h.valid o v (List.mem_of_mem_head? ?_)
  rw [List.head?_filterMap, hv]
  rfl

theorem isGiven_choices (h : IsAdmissible phrases) (o : ValueOption) :
    (choices phrases).isGiven o = false ↔ phrases.filterMap (Phrase.value? o) = [] := by
  rw [← findSome?_value_eq_none_iff]
  cases hv : phrases.findSome? (Phrase.value? o) with
  | none => cases o <;> simp [choices, Choices.isGiven, hv]
  | some v =>
    have hvalid := h.isValid_of_findSome? hv
    cases o with
    | scenario =>
      obtain ⟨s, hs⟩ := hvalid
      simp [choices, Choices.isGiven, hv, Scenario.ofName_eq_ok_iff.mpr hs, Except.toOption]
    | target =>
      obtain ⟨t, ht⟩ := hvalid
      simp [choices, Choices.isGiven, hv, Target.ofName_eq_ok_iff.mpr ht, Except.toOption]
    | arrayName => simp [choices, Choices.isGiven, hv]
    | comment => simp [choices, Choices.isGiven, hv]

/-- The choices of admissible phrases fix the run that these ask for. -/
theorem IsAdmissible.asksFor (h : IsAdmissible phrases) :
    AsksFor phrases ((choices phrases).scenario.getD .initial) (choices phrases).style where
  scenario_name := by
    cases hv : phrases.findSome? (Phrase.value? .scenario) with
    | none =>
      have hnone : (choices phrases).scenario = none := congrArg (Option.bind · _) hv
      rw [hnone]
      rfl
    | some v =>
      obtain ⟨s, hs⟩ := h.isValid_of_findSome? hv
      simp [choices, hv, Scenario.ofName_eq_ok_iff.mpr hs, Except.toOption, hs]
  target_name := by
    cases hv : phrases.findSome? (Phrase.value? .target) with
    | none =>
      have hnone : (choices phrases).target = none := congrArg (Option.bind · _) hv
      have hlower : "c".map Char.toLower = "c" := by decide +kernel
      rw [Choices.style, hnone]
      exact hlower.symm
    | some v =>
      obtain ⟨t, ht⟩ := h.isValid_of_findSome? hv
      simp [choices, Choices.style, hv, Target.ofName_eq_ok_iff.mpr ht, Except.toOption, ht]
  array_name := rfl
  comment := rfl
  indent := rfl

theorem verbosity_choices_append_singleton (phrases : List Phrase) (p : Phrase) :
    (choices (phrases ++ [p])).verbosity = (choices phrases).verbosity + p.verbosity := by
  induction phrases with
  | nil => exact Nat.add_comm _ _
  | cons q phrases ih =>
    change q.verbosity + (choices (phrases ++ [p])).verbosity =
      q.verbosity + (choices phrases).verbosity + p.verbosity
    rw [ih, Nat.add_assoc]

theorem choices_append_singleton (phrases : List Phrase) (p : Phrase) :
    choices (phrases ++ [p]) =
      { scenario := ((phrases.findSome? (Phrase.value? .scenario)).or (p.value? .scenario)).bind
          (fun v => (Scenario.ofName v).toOption)
        target := ((phrases.findSome? (Phrase.value? .target)).or (p.value? .target)).bind
          (fun v => (Target.ofName v).toOption)
        arrayName := (phrases.findSome? (Phrase.value? .arrayName)).or (p.value? .arrayName)
        comment := (phrases.findSome? (Phrase.value? .comment)).or (p.value? .comment)
        strict := (choices phrases).strict || decide (p = .switch .strict)
        list := (choices phrases).list || decide (p = .switch .list)
        verbosity := (choices phrases).verbosity + p.verbosity } := by
  have hvalue : ∀ o, (phrases ++ [p]).findSome? (Phrase.value? o) =
      (phrases.findSome? (Phrase.value? o)).or (p.value? o) := by
    intro o
    rw [List.findSome?_append, List.findSome?_singleton]
  have hswitch : ∀ s, (phrases ++ [p]).contains (.switch s) =
      (phrases.contains (.switch s) || decide (p = .switch s)) := by
    intro s
    rw [List.contains_append]
    simp [eq_comm]
  ext1
  · exact congrArg (Option.bind · _) (hvalue .scenario)
  · exact congrArg (Option.bind · _) (hvalue .target)
  · exact hvalue .arrayName
  · exact hvalue .comment
  · exact hswitch .strict
  · exact hswitch .list
  · exact verbosity_choices_append_singleton phrases p

theorem choices_append_of_value?_eq_none (hp : ∀ o, p.value? o = none) :
    choices (phrases ++ [p]) =
      { choices phrases with
        strict := (choices phrases).strict || decide (p = .switch .strict)
        list := (choices phrases).list || decide (p = .switch .list)
        verbosity := (choices phrases).verbosity + p.verbosity } := by
  rw [choices_append_singleton]
  simp only [hp, Option.or_none]
  rfl

theorem assign_choices {o : ValueOption} {value : String}
    (hnone : phrases.filterMap (Phrase.value? o) = [])
    (hp : p = .joined o value ∨ p = .separate o value) :
    (choices phrases).assign value o = choices (phrases ++ [p]) := by
  rw [← findSome?_value_eq_none_iff] at hnone
  rw [choices_append_singleton]
  rcases hp with rfl | rfl <;> cases o <;>
    simp [Choices.assign, choices, Phrase.value?, Phrase.verbosity, hnone]

theorem follows_value_iff {o : ValueOption} {value : String}
    (hp : p = .joined o value ∨ p = .separate o value) (hspell : p.IsSpellable) :
    p.Follows phrases ↔ IsValid value o ∧ phrases.filterMap (Phrase.value? o) = [] := by
  have hvalue : ∀ r, p.value? r = if o = r then some value else none := by
    intro r
    rcases hp with rfl | rfl <;> rfl
  have hswitch : ∀ s, p ≠ .switch s := by
    intro s
    rcases hp with rfl | rfl <;> simp
  constructor
  · intro h
    exact h.value o value (by rw [hvalue, if_pos rfl])
  · intro h
    refine ⟨hspell, fun r v hv => ?_, fun hs => absurd hs (hswitch _),
      fun hs => absurd hs (hswitch _), hswitch _, hswitch _⟩
    rw [hvalue] at hv
    split at hv
    · next heq =>
      obtain rfl := Option.some.inj hv
      exact heq ▸ h
    · cases hv

theorem give_choices_eq_ok_iff (h : IsAdmissible phrases) {o : ValueOption} {value : String}
    (hp : p = .joined o value ∨ p = .separate o value) (hspell : p.IsSpellable) {c : Choices} :
    (choices phrases).give o value = .ok c ↔
      p.Follows phrases ∧ c = choices (phrases ++ [p]) := by
  rw [Choices.give_eq_ok_iff, isGiven_choices h, follows_value_iff hp hspell, and_assoc]
  refine and_congr_right fun _ => and_congr_right fun hnone => ?_
  rw [assign_choices hnone hp]

theorem follows_switch_iff {s : Switch} :
    (Phrase.switch s).Follows phrases ↔
      (s = .strict → .switch .strict ∉ phrases) ∧ (s = .list → .switch .list ∉ phrases) ∧
        s ≠ .version ∧ s ≠ .help := by
  constructor
  · intro h
    exact ⟨fun hs => h.strict (congrArg _ hs), fun hs => h.list (congrArg _ hs),
      fun hs => h.no_version (congrArg _ hs), fun hs => h.no_help (congrArg _ hs)⟩
  · rintro ⟨hstrict, hlist, hversion, hhelp⟩
    exact {
      spellable := trivial
      value := nofun
      strict := fun hs => hstrict (Phrase.switch.inj hs)
      list := fun hs => hlist (Phrase.switch.inj hs)
      no_version := fun hs => hversion (Phrase.switch.inj hs)
      no_help := fun hs => hhelp (Phrase.switch.inj hs) }

theorem turn_choices_eq_ok_iff {s : Switch} {c : Choices} :
    (choices phrases).turn s = .ok c ↔
      (Phrase.switch s).Follows phrases ∧ c = choices (phrases ++ [.switch s]) := by
  have hstrict : (choices phrases).strict = decide (.switch .strict ∈ phrases) :=
    List.contains_eq_mem _ _
  have hlist : (choices phrases).list = decide (.switch .list ∈ phrases) :=
    List.contains_eq_mem _ _
  rw [follows_switch_iff, choices_append_of_value?_eq_none fun o => rfl]
  cases s with
  | strict => simp [Choices.turn, Choices.once_eq_ok_iff, hstrict, Phrase.verbosity]
  | list => simp [Choices.turn, Choices.once_eq_ok_iff, hlist, Phrase.verbosity]
  | verbose => simp [Choices.turn, Phrase.verbosity, eq_comm]
  | version => simp [Choices.turn]
  | help => simp [Choices.turn]

theorem follows_counted (more : ℕ) : (Phrase.counted more).Follows phrases where
  spellable := trivial
  value := nofun
  strict := nofun
  list := nofun
  no_version := nofun
  no_help := nofun

/-- One step: after admissible phrases a phrase is taken in when it may follow them,
and adds its choice to theirs. -/
theorem take_choices_eq_ok_iff (h : IsAdmissible phrases) (hp : p.IsSpellable) {c : Choices} :
    (choices phrases).take p = .ok c ↔
      p.Follows phrases ∧ c = choices (phrases ++ [p]) := by
  cases p with
  | joined o value => exact give_choices_eq_ok_iff h (.inl rfl) hp
  | separate o value => exact give_choices_eq_ok_iff h (.inr rfl) hp
  | switch s => exact turn_choices_eq_ok_iff
  | counted more =>
    rw [Choices.take, Choices.turnLetters_replicate,
      choices_append_of_value?_eq_none fun o => rfl]
    simp [follows_counted, Phrase.verbosity, eq_comm]

/-- A whole run: phrases are taken in when they are admissible. -/
theorem foldlM_take_eq_ok_iff (h : ∀ p ∈ phrases, p.IsSpellable) {c : Choices} :
    phrases.foldlM Choices.take {} = .ok c ↔ IsAdmissible phrases ∧ c = choices phrases := by
  induction phrases using List.reverseRecOn generalizing c with
  | nil => simp [isAdmissible_nil, choices_nil, pure, Except.pure, eq_comm]
  | append_singleton phrases p ih =>
    obtain ⟨hphrases, hp⟩ := List.forall_mem_append.mp h
    rw [List.foldlM_append, bind_eq_ok_iff, isAdmissible_append_singleton_iff, and_assoc]
    simp only [ih hphrases, List.foldlM_cons, List.foldlM_nil, bind_pure]
    constructor
    · rintro ⟨_, ⟨hadmissible, rfl⟩, htake⟩
      exact ⟨hadmissible, (take_choices_eq_ok_iff hadmissible (hp p (by simp))).mp htake⟩
    · rintro ⟨hadmissible, hfollows⟩
      exact ⟨_, ⟨hadmissible, rfl⟩,
        (take_choices_eq_ok_iff hadmissible (hp p (by simp))).mpr hfollows⟩

theorem read_spellAll_of_isAdmissible (h : IsAdmissible phrases) (dashed : Bool) :
    read (spellAll phrases dashed) = .ok (choices phrases) := by
  rw [read, Choices.read_spellAll h.spellable]
  exact (foldlM_take_eq_ok_iff h.spellable).mpr ⟨h, rfl⟩

/-- The reader accepts what admissible phrases spell, and nothing else. -/
theorem exists_phrases_of_read {arguments : List String} {c : Choices}
    (h : read arguments = .ok c) :
    ∃ phrases dashed, IsAdmissible phrases ∧ arguments = spellAll phrases dashed := by
  obtain ⟨phrases, dashed, hspell, rfl⟩ := Choices.exists_spellAll_of_read h
  rw [read, Choices.read_spellAll hspell] at h
  exact ⟨phrases, dashed, ((foldlM_take_eq_ok_iff hspell).mp h).1, rfl⟩

end PivotCoefficients.CommandLine
