import PivotCoefficients.Proofs.CommandLine.Words
import PivotCoefficients.Proofs.Except

/-!
# Reading phrases

To read the spelling of a phrase is to take the phrase in, and whatever can be
read is spelled by phrases: the reader and the grammar accept the same arguments
up to what the phrases choose. A reading that ends early has met a mistake unless
an argument asks for help or for the version.
-/
namespace PivotCoefficients.CommandLine

def Stop.IsMistake (e : Stop) : Prop :=
  ∃ mistake, e = .usage mistake

namespace Choices

variable {c c' : Choices}

def take (c : Choices) : Phrase → Except Stop Choices
  | .joined o value => c.give o value
  | .separate o value => c.give o value
  | .switch s => c.turn s
  | .counted more => c.turnLetters (List.replicate (more + 1) 'v')

theorem read_spell_append {p : Phrase} (hp : p.IsSpellable) (rest : List String) :
    c.read (p.spell ++ rest) = c.take p >>= fun c => c.read rest := by
  cases p with
  | joined o value =>
    have hword : Word.ofArgument ("--" ++ o.name ++ "=" ++ value) = .long o.name (some value) :=
      Word.ofArgument_long o.name_ne_empty o.not_mem_name (some value)
    rw [Phrase.spell, List.singleton_append, read.eq_def]
    simp only [hword, ValueOption.ofName?_name, take]
    cases c.give o value <;> rfl
  | separate o value =>
    have hword : Word.ofArgument ("--" ++ o.name) = .long o.name none :=
      Word.ofArgument_long o.name_ne_empty o.not_mem_name none
    have hplain : (Word.ofArgument value).isPlain = true := Word.isPlain_ofArgument_iff.mpr hp
    rw [Phrase.spell, List.cons_append, List.singleton_append, read.eq_def]
    simp only [hword, hplain, ValueOption.ofName?_name, take, if_true]
    cases c.give o value <;> rfl
  | switch s =>
    have hword : Word.ofArgument ("--" ++ s.name) = .long s.name none :=
      Word.ofArgument_long s.name_ne_empty s.not_mem_name none
    rw [Phrase.spell, List.singleton_append, read.eq_def]
    simp only [hword, ValueOption.ofName?_switchName, Switch.ofName?_name, take]
    cases c.turn s <;> rfl
  | counted more =>
    have hword : Word.ofArgument (String.ofList ('-' :: List.replicate (more + 1) 'v')) =
        .short (List.replicate (more + 1) 'v') :=
      Word.ofArgument_short (by decide) (List.replicate more 'v')
    rw [Phrase.spell, List.singleton_append, read.eq_def]
    simp only [hword, take]
    cases c.turnLetters (List.replicate (more + 1) 'v') <;> rfl

theorem read_spellAll {phrases : List Phrase} (h : ∀ p ∈ phrases, p.IsSpellable) (dashed : Bool) :
    c.read (spellAll phrases dashed) = phrases.foldlM take c := by
  induction phrases generalizing c with
  | nil => cases dashed <;> rfl
  | cons p phrases ih =>
    obtain ⟨hp, h⟩ := List.forall_mem_cons.mp h
    have hspell : spellAll (p :: phrases) dashed = p.spell ++ spellAll phrases dashed := by
      simp [spellAll]
    rw [hspell, read_spell_append hp, List.foldlM_cons]
    exact bind_congr fun c => ih h

/-- The reading ends at the front of the arguments: with a mistake, or with a
request that the first argument makes. -/
def EndsAt (argument : String) (rest : List String) : Prop :=
  ∀ c : Choices, ∃ e, c.read (argument :: rest) = .error e ∧
    (e.IsMistake ∨ IsRequest argument)

variable {argument : String} {rest : List String}

theorem endsAt_of_usage (mistake : UsageError)
    (h : ∀ c : Choices, c.read (argument :: rest) = .error (.usage mistake)) :
    EndsAt argument rest :=
  fun c => ⟨.usage mistake, h c, .inl ⟨mistake, rfl⟩⟩

/-- Letters that do not all raise the verbosity end the reading. -/
theorem turnLetters_cases (letters : List Char) :
    letters = List.replicate letters.length 'v' ∨
      ∀ c : Choices, ∃ e, c.turnLetters letters = .error e ∧
        (e.IsMistake ∨ RequestLetters letters) := by
  induction letters with
  | nil => exact .inl rfl
  | cons l letters ih =>
    cases hs : Switch.ofLetter? l with
    | none => exact .inr fun c => ⟨.usage (.unknownOption (String.ofList ['-', l])),
        by rw [turnLetters, hs], .inl ⟨_, rfl⟩⟩
    | some s =>
      rcases Switch.ofLetter?_eq_some_iff.mp hs with ⟨rfl, rfl⟩ | ⟨rfl, rfl⟩ | ⟨rfl, rfl⟩
      · refine ih.imp (congrArg ('v' :: ·)) fun hends c => ?_
        obtain ⟨e, he, hcause⟩ := hends { c with verbosity := c.verbosity + 1 }
        exact ⟨e, he, hcause.imp_right .verbose⟩
      · exact .inr fun c => ⟨.version, rfl, .inr (.version letters)⟩
      · exact .inr fun c => ⟨.help, rfl, .inr (.help letters)⟩

/-- What stands at the front of the arguments: `--` alone, or a phrase, or what ends
the reading. -/
inductive Front (argument : String) (rest : List String) : Prop where
  | dashes : argument = "--" → rest = [] → Front argument rest
  | phrase (p : Phrase) {tail : List String} :
    p.IsSpellable → argument :: rest = p.spell ++ tail → Front argument rest
  | ends : EndsAt argument rest → Front argument rest

theorem front_of_short {letters : List Char} (rest : List String)
    (hword : Word.ofArgument argument = .short letters) : Front argument rest := by
  have hargument := Word.text_ofArgument argument
  rw [hword] at hargument
  rcases turnLetters_cases letters with hall | hends
  · cases letters with
    | nil =>
      subst hargument
      cases hword
    | cons l letters =>
      rw [hall] at hargument
      exact .phrase (.counted letters.length) trivial (by rw [← hargument]; rfl)
  · refine .ends fun c => ?_
    obtain ⟨e, he, hcause⟩ := hends c
    have hrequest : RequestLetters letters → IsRequest argument :=
      fun h => hargument ▸ .short h
    exact ⟨e, by simp only [read.eq_def, hword, he], hcause.imp_right hrequest⟩

theorem front_of_valueOption {o : ValueOption} {value : Option String} (rest : List String)
    (hword : Word.ofArgument argument = .long o.name value) : Front argument rest := by
  have hargument := Word.text_ofArgument argument
  rw [hword] at hargument
  have ho := o.ofName?_name
  cases value with
  | some value => exact .phrase (.joined o value) trivial (by rw [← hargument]; rfl)
  | none =>
    cases rest with
    | nil =>
      refine .ends (endsAt_of_usage (.missingValue o) fun c => ?_)
      simp only [read.eq_def, hword, ho]
    | cons value rest =>
      by_cases hplain : (Word.ofArgument value).isPlain
      · have hspell := Word.isPlain_ofArgument_iff.mp hplain
        exact .phrase (.separate o value) hspell (by rw [← hargument]; rfl)
      · refine .ends (endsAt_of_usage (.missingValue o) fun c => ?_)
        rw [read.eq_def]
        simp only [hword, ho, if_neg hplain]

theorem front_of_switch {s : Switch} {value : Option String} (rest : List String)
    (hword : Word.ofArgument argument = .long s.name value) : Front argument rest := by
  have hargument := Word.text_ofArgument argument
  rw [hword] at hargument
  cases value with
  | some value =>
    refine .ends (endsAt_of_usage (.unexpectedValue s) fun c => ?_)
    simp only [read.eq_def, hword, ValueOption.ofName?_switchName, Switch.ofName?_name]
  | none => exact .phrase (.switch s) trivial (by rw [← hargument]; rfl)

theorem front_cases (argument : String) (rest : List String) : Front argument rest := by
  cases hword : Word.ofArgument argument with
  | plain text =>
    refine .ends (endsAt_of_usage (.unexpectedArgument text) fun c => ?_)
    simp only [read.eq_def, hword]
  | dashes =>
    have hargument := Word.text_ofArgument argument
    rw [hword] at hargument
    cases rest with
    | nil => exact .dashes hargument.symm rfl
    | cons next rest =>
      refine .ends (endsAt_of_usage (.unexpectedArgument next) fun c => ?_)
      simp only [read.eq_def, hword]
  | short letters => exact front_of_short rest hword
  | long name value =>
    cases ho : ValueOption.ofName? name with
    | some o =>
      obtain rfl := ValueOption.eq_name_of_ofName? ho
      exact front_of_valueOption rest hword
    | none =>
      cases hs : Switch.ofName? name with
      | some s =>
        obtain rfl := Switch.eq_name_of_ofName? hs
        exact front_of_switch rest hword
      | none =>
        refine .ends (endsAt_of_usage (.unknownOption ("--" ++ name)) fun c => ?_)
        simp only [read.eq_def, hword, ho, hs]

theorem spell_ne_nil (p : Phrase) : p.spell ≠ [] := by
  cases p <;> simp [Phrase.spell]

/-- Arguments are phrases up to their end or up to what ends the reading. -/
theorem arguments_induction {motive : List String → Prop} (nil : motive [])
    (dashes : motive ["--"])
    (phrase : ∀ (p : Phrase) (tail : List String), p.IsSpellable → motive tail →
      motive (p.spell ++ tail))
    (ends : ∀ argument rest, EndsAt argument rest → motive (argument :: rest))
    (arguments : List String) : motive arguments := by
  induction hlength : arguments.length using Nat.strong_induction_on generalizing arguments with
  | _ n ih =>
    cases arguments with
    | nil => exact nil
    | cons argument rest =>
      cases front_cases argument rest with
      | dashes hargument hrest => exact hargument ▸ hrest ▸ dashes
      | @phrase p tail hp hspell =>
        rw [hspell] at hlength ⊢
        rw [List.length_append] at hlength
        have hpos := List.length_pos_iff.mpr (spell_ne_nil p)
        exact phrase p tail hp (ih tail.length (by omega) tail rfl)
      | ends hends => exact ends argument rest hends

/-- What is read is spelled by phrases. -/
theorem exists_spellAll_of_read {arguments : List String} (h : c.read arguments = .ok c') :
    ∃ phrases dashed, (∀ p ∈ phrases, p.IsSpellable) ∧ arguments = spellAll phrases dashed := by
  induction arguments using arguments_induction generalizing c with
  | nil => exact ⟨[], false, by simp, rfl⟩
  | dashes => exact ⟨[], true, by simp, rfl⟩
  | phrase p tail hp ih =>
    rw [read_spell_append hp] at h
    obtain ⟨c₁, -, htail⟩ := bind_eq_ok_iff.mp h
    obtain ⟨phrases, dashed, hphrases, rfl⟩ := ih htail
    exact ⟨p :: phrases, dashed, List.forall_mem_cons.mpr ⟨hp, hphrases⟩, by simp [spellAll]⟩
  | ends argument rest hends =>
    obtain ⟨e, he, -⟩ := hends c
    rw [he] at h
    cases h

theorem turnLetters_replicate (c : Choices) (n : ℕ) :
    c.turnLetters (List.replicate n 'v') = .ok { c with verbosity := c.verbosity + n } := by
  induction n generalizing c with
  | zero => rfl
  | succ n ih =>
    have hrest := ih { c with verbosity := c.verbosity + 1 }
    rw [Nat.add_assoc, Nat.add_comm 1] at hrest
    exact hrest

theorem isMistake_of_once {name : String} {given : Bool} {e : Stop}
    (h : once name given c = .error e) : e.IsMistake := by
  unfold once at h
  split at h
  · exact ⟨_, (Except.error.inj h).symm⟩
  · cases h

theorem isMistake_of_give {o : ValueOption} {value : String} {e : Stop}
    (h : c.give o value = .error e) : e.IsMistake := by
  cases o with
  | scenario =>
    cases hname : Scenario.ofName value with
    | ok s =>
      simp only [give, hname] at h
      exact isMistake_of_once h
    | error cause =>
      simp only [give, hname] at h
      exact ⟨_, (Except.error.inj h).symm⟩
  | target =>
    cases hname : Target.ofName value with
    | ok t =>
      simp only [give, hname] at h
      exact isMistake_of_once h
    | error cause =>
      simp only [give, hname] at h
      exact ⟨_, (Except.error.inj h).symm⟩
  | arrayName => exact isMistake_of_once h
  | comment => exact isMistake_of_once h

theorem mistake_or_request_of_turn {s : Switch} {e : Stop} (h : c.turn s = .error e) :
    e.IsMistake ∨ s = .version ∨ s = .help := by
  cases s with
  | strict => exact .inl (isMistake_of_once h)
  | list => exact .inl (isMistake_of_once h)
  | verbose => cases h
  | version => exact .inr (.inl rfl)
  | help => exact .inr (.inr rfl)

theorem mistake_or_request_of_take {p : Phrase} {e : Stop} (h : c.take p = .error e) :
    e.IsMistake ∨ p = .switch .version ∨ p = .switch .help := by
  cases p with
  | joined o value => exact .inl (isMistake_of_give h)
  | separate o value => exact .inl (isMistake_of_give h)
  | switch s =>
    exact (mistake_or_request_of_turn h).imp_right
      (Or.imp (congrArg Phrase.switch) (congrArg Phrase.switch))
  | counted more =>
    rw [take, turnLetters_replicate] at h
    cases h

theorem mistake_or_request_of_foldlM {phrases : List Phrase} {e : Stop}
    (h : phrases.foldlM take c = .error e) :
    e.IsMistake ∨ .switch .version ∈ phrases ∨ .switch .help ∈ phrases := by
  induction phrases generalizing c with
  | nil => cases h
  | cons p phrases ih =>
    rw [List.foldlM_cons] at h
    rcases bind_eq_error_iff.mp h with htake | ⟨c₁, -, hrest⟩
    · refine (mistake_or_request_of_take htake).imp_right (Or.imp ?_ ?_)
      · rintro rfl
        exact List.mem_cons_self
      · rintro rfl
        exact List.mem_cons_self
    · exact (ih hrest).imp_right (Or.imp (List.mem_cons_of_mem p) (List.mem_cons_of_mem p))

/-- A reading that ends early has met a mistake, unless an argument makes a request. -/
theorem mistake_or_request_of_read {arguments : List String} {e : Stop}
    (h : c.read arguments = .error e) :
    e.IsMistake ∨ Requests arguments := by
  induction arguments using arguments_induction generalizing c with
  | nil => cases h
  | dashes => cases h
  | phrase p tail hp ih =>
    rw [read_spell_append hp] at h
    rcases bind_eq_error_iff.mp h with htake | ⟨c₁, -, htail⟩
    · refine (mistake_or_request_of_take htake).imp_right fun hrequest => ?_
      rcases hrequest with rfl | rfl
      · exact .here tail .version
      · exact .here tail .help
    · exact (ih htail).imp_right (.later p hp)
  | ends argument rest hends =>
    obtain ⟨e', he', hcause⟩ := hends c
    obtain rfl := Except.error.inj (h.symm.trans he')
    exact hcause.imp_right (.here rest)

end Choices

end PivotCoefficients.CommandLine
