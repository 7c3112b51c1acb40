import Mathlib.Data.List.TakeWhile
import PivotCoefficients.Decimal
import PivotCoefficients.Formula.Token

/-!
# Texts that show tokens

A text shows a list of tokens when scanning reads them off it, whatever follows
after a break. Names, numbers and signs show their own tokens, and texts that
begin with a break may be appended to others.
-/
namespace PivotCoefficients.Token

/-- The first character, if there is one, continues neither a name nor a number. -/
def Breaks (cs : List Char) : Prop :=
  ∀ c ∈ cs.head?, isNameRest c = false ∧ c ≠ '.'

/-- The characters are read as the tokens where a break follows. -/
def Shows (cs : List Char) (ts : List Token) : Prop :=
  ∀ rest, Breaks rest → scan (cs ++ rest) = (scan rest).map (ts ++ ·)

theorem breaks_nil : Breaks [] := by simp [Breaks]

theorem Breaks.append {cs ds : List Char} (hc : Breaks cs) (hd : Breaks ds) :
    Breaks (cs ++ ds) := by
  cases cs with
  | nil => exact hd
  | cons c cs => simpa [Breaks] using hc

theorem isNameRest_of_isNameStart {c : Char} (h : isNameStart c) : isNameRest c := by
  unfold isNameStart at h
  unfold isNameRest
  rw [Char.isAlphanum]
  grind

theorem isNameRest_of_isDigit {c : Char} (h : c.isDigit) : isNameRest c := by
  simp [isNameRest, Char.isAlphanum, h]

theorem isNameStart_of_isDigit {c : Char} (h : c.isDigit) : isNameStart c = false := by
  have hne : c ≠ '_' := by
    rintro rfl
    exact absurd h (by decide)
  have hdigit : c.toNat ≤ 57 := by
    simp only [Char.isDigit, Bool.and_eq_true, decide_eq_true_eq, UInt32.le_iff_toNat_le] at h
    exact h.2
  have halpha : c.isAlpha = false := by
    rw [Bool.eq_false_iff]
    intro ha
    delta Char.isAlpha Char.isUpper Char.isLower at ha
    simp only [Bool.or_eq_true, Bool.and_eq_true, decide_eq_true_eq, UInt32.le_iff_toNat_le] at ha
    have hval : c.toNat = c.val.toNat := rfl
    rcases ha with ha | ha
    · have hA : 65 ≤ c.val.toNat := ha.1
      omega
    · have hA : 97 ≤ c.val.toNat := ha.1
      omega
  simp [isNameStart, halpha, hne]

theorem mark?_of_isNameRest {c : Char} (h : isNameRest c) : c ≠ ' ' ∧ mark? c = none := by
  constructor
  · rintro rfl
    exact absurd h (by decide)
  · unfold mark?
    split
    all_goals first | rfl | exact absurd h (by decide)

theorem Breaks.takeWhile_eq_nil {cs : List Char} (h : Breaks cs) {p : Char → Bool}
    (hp : ∀ c, p c → isNameRest c) : cs.takeWhile p = [] := by
  cases cs with
  | nil => rfl
  | cons c cs =>
    have hc : isNameRest c = false := (h c (by simp)).1
    rw [List.takeWhile_cons_of_neg]
    intro hpc
    simp [hp c hpc] at hc

theorem Breaks.dropWhile_eq_self {cs : List Char} (h : Breaks cs) {p : Char → Bool}
    (hp : ∀ c, p c → isNameRest c) : cs.dropWhile p = cs := by
  cases cs with
  | nil => rfl
  | cons c cs =>
    have hc : isNameRest c = false := (h c (by simp)).1
    rw [List.dropWhile_cons_of_neg]
    intro hpc
    simp [hp c hpc] at hc

theorem shows_nil : Shows [] [] := by
  intro rest _
  simp

theorem Shows.append {cs ds : List Char} {ts us : List Token} (hc : Shows cs ts)
    (hd : Shows ds us) (hbreak : Breaks ds) : Shows (cs ++ ds) (ts ++ us) := by
  intro rest hrest
  rw [List.append_assoc, hc _ (hbreak.append hrest), hd _ hrest, Option.map_map]
  simp [Function.comp_def]

theorem Shows.scan_eq {cs : List Char} {ts : List Token} (h : Shows cs ts) :
    scan cs = some ts := by
  simpa using h [] breaks_nil

theorem Shows.blank_cons {cs : List Char} {ts : List Token} (h : Shows cs ts) :
    Shows (' ' :: cs) ts := by
  intro rest hrest
  rw [List.cons_append, scan_blank, h rest hrest]

theorem Shows.mark_cons {c : Char} {t : Token} (hc : c ≠ ' ') (ht : mark? c = some t)
    {cs : List Char} {ts : List Token} (h : Shows cs ts) : Shows (c :: cs) (t :: ts) := by
  intro rest hrest
  rw [List.cons_append, scan_mark hc ht, h rest hrest, Option.map_map]
  rfl

theorem breaks_blank (cs : List Char) : Breaks (' ' :: cs) := by
  simp [Breaks, isNameRest]

theorem breaks_mark {c : Char} {t : Token} (ht : mark? c = some t) (cs : List Char) :
    Breaks (c :: cs) := by
  have hrest : isNameRest c = false := by
    rw [Bool.eq_false_iff]
    intro hc
    simp [(mark?_of_isNameRest hc).2] at ht
  have hpoint : c ≠ '.' := by
    rintro rfl
    simp [mark?] at ht
  simp [Breaks, hrest, hpoint]

theorem Shows.append_mark {c : Char} {t : Token} (hc : c ≠ ' ') (ht : mark? c = some t)
    {cs ds : List Char} {ts us : List Token} (hcs : Shows cs ts) (hds : Shows ds us) :
    Shows (cs ++ c :: ds) (ts ++ t :: us) :=
  hcs.append (hds.mark_cons hc ht) (breaks_mark ht ds)

theorem shows_name {s : Symbol} (hs : s.isIdentifier) : Shows s.name.toList [.name s.name] := by
  intro rest hrest
  unfold Symbol.isIdentifier at hs
  split at hs
  · simp at hs
  · next c cs hname =>
    obtain ⟨hstart, hall⟩ := Bool.and_eq_true_iff.mp hs
    have hall' : ∀ d ∈ cs, isNameRest d := List.all_eq_true.mp hall
    have hmark := mark?_of_isNameRest (isNameRest_of_isNameStart hstart)
    rw [hname, List.cons_append, scan, if_neg hmark.1, hmark.2]
    simp only [if_pos hstart]
    rw [List.takeWhile_append_of_pos hall', List.dropWhile_append_of_pos hall',
      hrest.takeWhile_eq_nil (fun _ => id), hrest.dropWhile_eq_self (fun _ => id),
      List.append_nil, ← hname, String.ofList_toList]
    rfl

/-- Digits are read up to their end, and then what `ofDigits` finds there. -/
theorem scan_digits (n : ℕ) {rest : List Char} (htake : rest.takeWhile Char.isDigit = [])
    (hdrop : rest.dropWhile Char.isDigit = rest) :
    scan (Nat.toDigits 10 n ++ rest) =
      (scan (ofDigits n rest).2).map ((ofDigits n rest).1 :: ·) := by
  have hdigits : ∀ c ∈ Nat.toDigits 10 n, c.isDigit := fun c hc =>
    Nat.isDigit_of_mem_toDigits (by decide) (by decide) hc
  have hvalue : Nat.ofDigitChars 10 (Nat.toDigits 10 n) 0 = n := Nat.ofDigitChars_ten_toDigits
  cases hn : Nat.toDigits 10 n with
  | nil => exact absurd hn Nat.toDigits_ne_nil
  | cons c cs =>
    rw [hn] at hdigits hvalue
    obtain ⟨hc, hcs⟩ := List.forall_mem_cons.mp hdigits
    have hmark := mark?_of_isNameRest (isNameRest_of_isDigit hc)
    rw [List.cons_append, scan, if_neg hmark.1, hmark.2]
    simp only [isNameStart_of_isDigit hc, Bool.false_eq_true, if_false, if_pos hc]
    rw [List.takeWhile_append_of_pos hcs, List.dropWhile_append_of_pos hcs, htake, hdrop,
      List.append_nil, hvalue]

theorem shows_whole (n : ℕ) : Shows (Nat.toDigits 10 n) [.whole n] := by
  intro rest hrest
  have hnot : ofDigits n rest = (.whole n, rest) := by
    cases rest with
    | nil => rfl
    | cons c rest =>
      have hc : c ≠ '.' := (hrest c (by simp)).2
      unfold ofDigits
      split
      · next h => exact absurd (List.cons.inj h).1 hc
      · rfl
  rw [scan_digits n (hrest.takeWhile_eq_nil fun _ => isNameRest_of_isDigit)
    (hrest.dropWhile_eq_self fun _ => isNameRest_of_isDigit), hnot]
  rfl

theorem shows_point (n : ℕ) : Shows (Nat.toDigits 10 n ++ ['.', '0']) [.point n] := by
  intro rest _
  rw [List.append_assoc, scan_digits n (by simp) (by simp)]
  rfl

theorem not_newline_of_isNameRest {c : Char} (h : isNameRest c) : c ≠ '\n' := by
  rintro rfl
  exact absurd h (by decide)

theorem newline_not_mem_ofDigits {n : ℕ} {cs : List Char} (h : '\n' ∉ (ofDigits n cs).2) :
    '\n' ∉ cs := by
  unfold ofDigits at h
  split at h
  · simpa using h
  · exact h

theorem newline_not_mem_of_dropWhile {p : Char → Bool} (hp : p '\n' = false) {cs : List Char}
    (h : '\n' ∉ cs.dropWhile p) : '\n' ∉ cs := by
  intro hcs
  rw [← List.takeWhile_append_dropWhile (p := p) (l := cs)] at hcs
  rcases List.mem_append.mp hcs with hcs | hcs
  · simp [List.mem_takeWhile_imp hcs] at hp
  · exact h hcs

/-- A text of tokens stands on one line. -/
theorem newline_not_mem_of_scan {cs : List Char} {ts : List Token} (h : scan cs = some ts) :
    '\n' ∉ cs := by
  fun_induction scan cs generalizing ts with
  | case1 => simp
  | case2 cs ih => simpa using ih h
  | case3 c cs hblank t hmark ih =>
    obtain ⟨us, hus, -⟩ := Option.map_eq_some_iff.mp h
    have hc : '\n' ≠ c := by
      rintro rfl
      cases hmark
    simpa [hc] using ih hus
  | case4 c cs hblank hmark hstart ih =>
    obtain ⟨us, hus, -⟩ := Option.map_eq_some_iff.mp h
    have hc := not_newline_of_isNameRest (isNameRest_of_isNameStart hstart)
    have hcs := newline_not_mem_of_dropWhile (by decide) (ih hus)
    simpa [hc.symm] using hcs
  | case5 c cs hblank hmark hstart hdigit =>
    rename_i ih
    obtain ⟨us, hus, -⟩ := Option.map_eq_some_iff.mp h
    have hc := not_newline_of_isNameRest (isNameRest_of_isDigit hdigit)
    have hcs := newline_not_mem_of_dropWhile (by decide) (newline_not_mem_ofDigits (ih hus))
    simpa [hc.symm] using hcs
  | case6 => simp at h

end PivotCoefficients.Token
