import PivotCoefficients.Proofs.CommandLine.Rephrasing
import PivotCoefficients.Proofs.Scenario.LeadingCoefficient

/-!
# Responses to options

Accepted options are always answered, since every scenario derives its
coefficients and none of the tables is degenerate. The answer is the listing or
the text of a run, which only the chosen options decide; how they are said has no
part in it. Arguments that are not accepted are answered by a usage error.
-/
namespace PivotCoefficients.CommandLine

variable {arguments : List String} {c : Choices}

theorem Choices.exists_execute (c : Choices) :
    ∃ text, c.execute = .ok text ∧ (c.list = true → text = listing) ∧
      (c.list = false →
        ∃ o, (c.scenario.getD .initial).run c.style = .ok o ∧ text = o.text) := by
  cases hlist : c.list with
  | true => exact ⟨listing, by rw [execute, if_pos hlist], fun _ => rfl, nofun⟩
  | false =>
    obtain ⟨o, hrun, hdegenerate⟩ := (c.scenario.getD .initial).exists_run c.style
    refine ⟨o.text, ?_, nofun, fun _ => ⟨o, hrun, rfl⟩⟩
    have hrelease : o.release (c.scenario.getD .initial) c.strict = .ok o.text := by
      simp [Output.release, hdegenerate]
    simp [execute, hlist, hrun, hrelease]

theorem respond_of_execute (hread : read arguments = .ok c) {text : String}
    (hexecute : c.execute = .ok text) :
    (respond arguments).exitStatus = 0 ∧ (respond arguments).output = text := by
  simp [respond, hread, hexecute]

theorem respond_of_mistake {mistake : UsageError}
    (hread : read arguments = .error (.usage mistake)) :
    (respond arguments).exitStatus = 2 ∧ (respond arguments).output = "" := by
  simp [respond, hread]

theorem respond_of_not_admissible (hrequest : ¬ Requests arguments)
    (h : ¬ ∃ phrases dashed, IsAdmissible phrases ∧ arguments = spellAll phrases dashed) :
    (respond arguments).exitStatus = 2 ∧ (respond arguments).output = "" := by
  cases hread : read arguments with
  | ok c => exact absurd (exists_phrases_of_read hread) h
  | error e =>
    rcases Choices.mistake_or_request_of_read hread with ⟨mistake, rfl⟩ | hasks
    · exact respond_of_mistake hread
    · exact absurd hasks hrequest

section Phrases

variable {phrases phrases' : List Phrase}

/-- Phrases that are not admissible are a usage error, in whatever way they are not. -/
theorem respond_spellAll_of_not_isAdmissible (hspell : ∀ p ∈ phrases, p.IsSpellable)
    (hversion : .switch .version ∉ phrases) (hhelp : .switch .help ∉ phrases)
    (h : ¬ IsAdmissible phrases) (dashed : Bool) :
    (respond (spellAll phrases dashed)).exitStatus = 2 ∧
      (respond (spellAll phrases dashed)).output = "" := by
  have hread : read (spellAll phrases dashed) = phrases.foldlM Choices.take {} :=
    Choices.read_spellAll hspell dashed
  cases hfold : phrases.foldlM Choices.take {} with
  | ok c => exact absurd ((foldlM_take_eq_ok_iff hspell).mp hfold).1 h
  | error e =>
    rcases Choices.mistake_or_request_of_foldlM hfold with ⟨mistake, rfl⟩ | hmem | hmem
    · exact respond_of_mistake (hread.trans hfold)
    · exact absurd hmem hversion
    · exact absurd hmem hhelp

theorem respond_spellAll_of_isAdmissible (h : IsAdmissible phrases) (dashed : Bool) :
    (respond (spellAll phrases dashed)).exitStatus = 0 ∧
      (.switch .list ∈ phrases → (respond (spellAll phrases dashed)).output = listing) ∧
      (.switch .list ∉ phrases → ∃ scenario style o, AsksFor phrases scenario style ∧
        scenario.run style = .ok o ∧
          (respond (spellAll phrases dashed)).output = o.text) := by
  obtain ⟨text, hexecute, hlisting, hrun⟩ := (choices phrases).exists_execute
  obtain ⟨hstatus, houtput⟩ :=
    respond_of_execute (read_spellAll_of_isAdmissible h dashed) hexecute
  have hlist : (choices phrases).list = decide (.switch .list ∈ phrases) :=
    List.contains_eq_mem _ _
  rw [hstatus, houtput]
  refine ⟨rfl, fun hmem => hlisting ?_, fun hmem => ?_⟩
  · rw [hlist, decide_eq_true hmem]
  · obtain ⟨o, hok, htext⟩ := hrun (hlist.trans (decide_eq_false hmem))
    exact ⟨_, _, o, h.asksFor, hok, htext⟩

theorem respond_spellAll_of_rephrases (h : IsAdmissible phrases)
    (hsame : Rephrases phrases phrases') (dashed : Bool) :
    (respond (spellAll phrases' dashed)).exitStatus =
        (respond (spellAll phrases dashed)).exitStatus ∧
      (respond (spellAll phrases' dashed)).output =
        (respond (spellAll phrases dashed)).output := by
  obtain ⟨text, hexecute, -⟩ := (choices phrases).exists_execute
  have hexecute' : (choices phrases').execute = .ok text := by
    rw [h.choices_eq hsame.givesSame]
    exact hexecute
  have h' := h.of_givesSame hsame.givesSame
  obtain ⟨hstatus, houtput⟩ :=
    respond_of_execute (read_spellAll_of_isAdmissible h dashed) hexecute
  obtain ⟨hstatus', houtput'⟩ :=
    respond_of_execute (read_spellAll_of_isAdmissible h' dashed) hexecute'
  rw [hstatus, houtput, hstatus', houtput']
  exact ⟨rfl, rfl⟩

end Phrases

/-- The answer to arguments without a request for help or for the version. What the
grammar accepts exits with 0 and is answered by the listing, if that was asked for,
and else by the text of the run that the options ask for; whatever else it is, it
exits with 2 and without output, and so do phrases with an invalid value or a
repeated option. Saying the same in another way has the same answer. -/
theorem respond_outcome :
    (∀ phrases dashed, IsAdmissible phrases →
      (respond (spellAll phrases dashed)).exitStatus = 0 ∧
        (.switch .list ∈ phrases → (respond (spellAll phrases dashed)).output = listing) ∧
        (.switch .list ∉ phrases → ∃ scenario style o, AsksFor phrases scenario style ∧
          scenario.run style = .ok o ∧
            (respond (spellAll phrases dashed)).output = o.text)) ∧
    (∀ arguments, ¬ Requests arguments →
      (¬ ∃ phrases dashed, IsAdmissible phrases ∧ arguments = spellAll phrases dashed) →
      (respond arguments).exitStatus = 2 ∧ (respond arguments).output = "") ∧
    (∀ phrases dashed, (∀ p ∈ phrases, p.IsSpellable) → .switch .version ∉ phrases →
      .switch .help ∉ phrases → ¬ IsAdmissible phrases →
      (respond (spellAll phrases dashed)).exitStatus = 2 ∧
        (respond (spellAll phrases dashed)).output = "") ∧
    ∀ phrases phrases' dashed, IsAdmissible phrases → Rephrases phrases phrases' →
      (respond (spellAll phrases' dashed)).exitStatus =
          (respond (spellAll phrases dashed)).exitStatus ∧
        (respond (spellAll phrases' dashed)).output =
          (respond (spellAll phrases dashed)).output :=
  ⟨fun _ dashed h => respond_spellAll_of_isAdmissible h dashed,
    fun _ => respond_of_not_admissible,
    fun _ dashed hspell hversion hhelp h =>
      respond_spellAll_of_not_isAdmissible hspell hversion hhelp h dashed,
    fun _ _ dashed h hsame => respond_spellAll_of_rephrases h hsame dashed⟩

/-- Options in another order, with the value joined and the verbosity raised. -/
theorem respond_outcome_reordered :
    (respond ["--strict", "--scenario", "panography"]).exitStatus = 0 ∧
      (respond ["--scenario=panography", "-vv", "--strict"]).output =
        (respond ["--strict", "--scenario", "panography"]).output := by
  have hadmissible : IsAdmissible [.switch .strict, .separate .scenario "panography"] :=
    { spellable := by simp [Phrase.IsSpellable]
      valid := by
        intro o v hv
        cases o <;> simp [Phrase.value?] at hv
        subst hv
        exact ⟨.panography, rfl⟩
      value_once := by intro o; cases o <;> decide
      strict_once := by decide
      list_once := by decide
      no_version := by decide
      no_help := by decide }
  have hsame : Rephrases [.switch .strict, .separate .scenario "panography"]
      [.joined .scenario "panography", .counted 1, .switch .strict] :=
    .trans (.perm (.swap _ _ _)) (.trans (.join [] [.switch .strict] _ _) (.count [_] [_] 1))
  exact ⟨(respond_outcome.1 _ false hadmissible).1,
    (respond_outcome.2.2.2 _ _ false hadmissible hsame).2⟩

end PivotCoefficients.CommandLine
