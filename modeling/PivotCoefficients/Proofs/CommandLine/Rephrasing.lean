import PivotCoefficients.CommandLine.Response
import PivotCoefficients.Proofs.CommandLine.Choices

/-!
# Other ways to say the same

Phrases may be reordered, a value may be joined to its option, and the verbosity
may be raised anywhere. The phrases stay admissible then, and choose the same but
for the verbosity, which has no part in the response.
-/
namespace PivotCoefficients.CommandLine

/-- The second list says the same as the first, with more verbosity perhaps. -/
inductive Rephrases : List Phrase → List Phrase → Prop where
  | perm {phrases phrases' : List Phrase} : phrases.Perm phrases' → Rephrases phrases phrases'
  | join (before after : List Phrase) (o : ValueOption) (value : String) :
    Rephrases (before ++ .separate o value :: after) (before ++ .joined o value :: after)
  | count (before after : List Phrase) (more : ℕ) :
    Rephrases (before ++ after) (before ++ .counted more :: after)
  | verbose (before after : List Phrase) :
    Rephrases (before ++ after) (before ++ .switch .verbose :: after)
  | trans {first second third : List Phrase} :
    Rephrases first second → Rephrases second third → Rephrases first third

/-- Both lists give the same values to the options, in some order, and have the same
switches but for the verbosity. -/
structure GivesSame (phrases phrases' : List Phrase) : Prop where
  spellable : (∀ p ∈ phrases, p.IsSpellable) → ∀ p ∈ phrases', p.IsSpellable
  values : ∀ o, (phrases.filterMap (Phrase.value? o)).Perm (phrases'.filterMap (Phrase.value? o))
  switches : ∀ s, s ≠ .verbose → phrases.count (.switch s) = phrases'.count (.switch s)

variable {phrases phrases' : List Phrase}

theorem GivesSame.trans {phrases'' : List Phrase} (h : GivesSame phrases phrases')
    (h' : GivesSame phrases' phrases'') : GivesSame phrases phrases'' where
  spellable := h'.spellable ∘ h.spellable
  values o := (h.values o).trans (h'.values o)
  switches s hs := (h.switches s hs).trans (h'.switches s hs)

theorem Rephrases.givesSame (h : Rephrases phrases phrases') : GivesSame phrases phrases' := by
  induction h with
  | perm hperm =>
    exact {
      spellable := fun hp p hp' => hp p (hperm.mem_iff.mpr hp')
      values := fun o => hperm.filterMap _
      switches := fun s _ => hperm.count_eq _ }
  | join before after o value =>
    exact {
      spellable := by simp +contextual [or_imp, forall_and, Phrase.IsSpellable]
      values := fun r => by simp [List.filterMap_append, List.filterMap_cons, Phrase.value?]
      switches := fun s _ => by simp [List.count_append] }
  | count before after more =>
    exact {
      spellable := by simp +contextual [or_imp, forall_and, Phrase.IsSpellable]
      values := fun r => by simp [List.filterMap_append, List.filterMap_cons, Phrase.value?]
      switches := fun s _ => by simp [List.count_append] }
  | verbose before after =>
    exact {
      spellable := by simp +contextual [or_imp, forall_and, Phrase.IsSpellable]
      values := fun r => by simp [List.filterMap_append, List.filterMap_cons, Phrase.value?]
      switches := fun s hs => by simp [List.count_append, hs.symm] }
  | trans _ _ ih ih' => exact ih.trans ih'

theorem IsAdmissible.of_givesSame (h : IsAdmissible phrases) (hsame : GivesSame phrases phrases') :
    IsAdmissible phrases' where
  spellable := hsame.spellable h.spellable
  valid o v hv := h.valid o v ((hsame.values o).mem_iff.mpr hv)
  value_once o := (hsame.values o).length_eq ▸ h.value_once o
  strict_once := hsame.switches .strict (by decide) ▸ h.strict_once
  list_once := hsame.switches .list (by decide) ▸ h.list_once
  no_version := by
    rw [← List.count_eq_zero, ← hsame.switches .version (by decide), List.count_eq_zero]
    exact h.no_version
  no_help := by
    rw [← List.count_eq_zero, ← hsame.switches .help (by decide), List.count_eq_zero]
    exact h.no_help

theorem IsAdmissible.findSome?_value_eq (h : IsAdmissible phrases)
    (hsame : GivesSame phrases phrases') (o : ValueOption) :
    phrases'.findSome? (Phrase.value? o) = phrases.findSome? (Phrase.value? o) := by
  have honce := h.value_once o
  have hperm := hsame.values o
  rw [← List.head?_filterMap, ← List.head?_filterMap]
  generalize phrases.filterMap (Phrase.value? o) = l at honce hperm
  match l with
  | [] => rw [List.nil_perm.mp hperm]
  | [v] => rw [List.singleton_perm.mp hperm]
  | _ :: _ :: _ => simp at honce

theorem GivesSame.contains_switch_eq (hsame : GivesSame phrases phrases') {s : Switch}
    (hs : s ≠ .verbose) : phrases'.contains (.switch s) = phrases.contains (.switch s) := by
  have hcount := hsame.switches s hs
  rw [Bool.eq_iff_iff, List.contains_iff_mem, List.contains_iff_mem, ← List.count_pos_iff,
    ← List.count_pos_iff, hcount]

/-- All choices but the verbosity are the same. -/
theorem IsAdmissible.choices_eq (h : IsAdmissible phrases) (hsame : GivesSame phrases phrases') :
    choices phrases' = { choices phrases with verbosity := (choices phrases').verbosity } := by
  have hvalue := h.findSome?_value_eq hsame
  ext1
  · exact congrArg (Option.bind · _) (hvalue .scenario)
  · exact congrArg (Option.bind · _) (hvalue .target)
  · exact hvalue .arrayName
  · exact hvalue .comment
  · exact hsame.contains_switch_eq (by decide)
  · exact hsame.contains_switch_eq (by decide)
  · rfl

end PivotCoefficients.CommandLine
