import Mathlib.Data.Rat.Init
import PivotCoefficients.Expression.Reader
import PivotCoefficients.Proofs.Formula.Scanning

/-!
# The grammar of expression texts

The text of an expression is `0`, or terms within signs, each a positive coefficient,
a product of symbol powers, or the two joined by `*`. The grammar relates such texts
to the terms they show, with nothing sorted or merged, and reading finds exactly these.
-/
namespace PivotCoefficients.Expression

open Token

/-- `n` or `n/d` -/
inductive IsCoefficientText : String → ℚ → Prop
  | whole {n : ℕ} (hn : n ≠ 0) : IsCoefficientText (Decimal.digits n) n
  | fraction {n d : ℕ} (hn : n ≠ 0) (hd : d ≠ 0) :
      IsCoefficientText (Decimal.digits n ++ "/" ++ Decimal.digits d) (Rat.divInt n d)

/-- `x` or `x^k` -/
inductive IsPowerText : String → Symbol × ℕ → Prop
  | symbol {s : Symbol} (hs : s.isIdentifier) : IsPowerText s.name (s, 1)
  | power {s : Symbol} (hs : s.isIdentifier) (k : ℕ) :
      IsPowerText (s.name ++ "^" ++ Decimal.digits k) (s, k)

inductive IsMonomialText : String → List (Symbol × ℕ) → Prop
  | power {a : String} {f : Symbol × ℕ} (ha : IsPowerText a f) : IsMonomialText a [f]
  | times {a b : String} {f : Symbol × ℕ} {fs : List (Symbol × ℕ)} (ha : IsPowerText a f)
      (hb : IsMonomialText b fs) : IsMonomialText (a ++ "*" ++ b) (f :: fs)

/-- A coefficient, a monomial, or both joined by `*`. -/
inductive IsTermText : String → Term → Prop
  | coefficient {a : String} {c : ℚ} (ha : IsCoefficientText a c) : IsTermText a (.one, c)
  | monomial {a : String} {fs : List (Symbol × ℕ)} (ha : IsMonomialText a fs) :
      IsTermText a (⟨fs⟩, 1)
  | product {a b : String} {c : ℚ} {fs : List (Symbol × ℕ)} (ha : IsCoefficientText a c)
      (hb : IsMonomialText b fs) : IsTermText (a ++ "*" ++ b) (⟨fs⟩, c)

/-- The terms after the first one, each after a sign between blanks. -/
inductive IsTailText : String → List Term → Prop
  | nil : IsTailText "" []
  | plus {a b : String} {t : Term} {ts : List Term} (ha : IsTermText a t)
      (hb : IsTailText b ts) : IsTailText (" + " ++ a ++ b) (t :: ts)
  | minus {a b : String} {t : Term} {ts : List Term} (ha : IsTermText a t)
      (hb : IsTailText b ts) : IsTailText (" - " ++ a ++ b) ((t.1, -t.2) :: ts)

/-- `0`, or terms of which the first may have a minus sign directly in front. -/
inductive IsSumText : String → List Term → Prop
  | zero : IsSumText "0" []
  | plain {a b : String} {t : Term} {ts : List Term} (ha : IsTermText a t)
      (hb : IsTailText b ts) : IsSumText (a ++ b) (t :: ts)
  | minus {a b : String} {t : Term} {ts : List Term} (ha : IsTermText a t)
      (hb : IsTailText b ts) : IsSumText ("-" ++ a ++ b) ((t.1, -t.2) :: ts)

/-- The tokens do not go on with the number or the name in front of them. -/
def EndsFactor (ts : List Token) : Prop :=
  ts.head? ≠ some .over ∧ ts.head? ≠ some .caret

section Tokens

variable {rest : List Token} (negative : Bool) (c : ℚ) (fs : List (Symbol × ℕ)) (s : Symbol)

theorem readTerms_whole (n : ℕ) (h : EndsFactor rest) :
    readTerms negative (.whole n :: rest) = readFactors (withSign negative n) [] rest := by
  rw [readTerms]
  rintro d rest rfl
  exact h.1 rfl

theorem readTerms_fraction (n : ℕ) {d : ℕ} (hd : d ≠ 0) :
    readTerms negative (.whole n :: .over :: .whole d :: rest) =
      readFactors (withSign negative (Rat.divInt n d)) [] rest := by
  rw [readTerms, if_neg hd]

theorem readTerms_name (h : EndsFactor rest) :
    readTerms negative (.name s.name :: rest) =
      readFactors (withSign negative 1) [(s, 1)] rest := by
  rw [readTerms]
  rintro k rest rfl
  exact h.2 rfl

theorem readFactors_times_name (h : EndsFactor rest) :
    readFactors c fs (.times :: .name s.name :: rest) = readFactors c (fs ++ [(s, 1)]) rest := by
  rw [readFactors]
  rintro k rest rfl
  exact h.2 rfl

end Tokens

def ShowsCoefficient (cs : List Char) (c : ℚ) : Prop :=
  ∃ n ts, n ≠ 0 ∧ Shows cs (.whole n :: ts) ∧ ∀ negative rest, EndsFactor rest →
    readTerms negative (.whole n :: ts ++ rest) = readFactors (withSign negative c) [] rest

/-- The characters are read as factors, both where a term begins and after `*`. -/
def ShowsFactors (cs : List Char) (fs : List (Symbol × ℕ)) : Prop :=
  ∃ name ts, Shows cs (.name name :: ts) ∧ ∀ rest, EndsFactor rest →
    (∀ negative, readTerms negative (.name name :: ts ++ rest) =
      readFactors (withSign negative 1) fs rest) ∧
    ∀ c gs, readFactors c gs (.times :: .name name :: ts ++ rest) = readFactors c (gs ++ fs) rest

/-- The characters are read as a term, and they begin neither with zero nor with a minus sign. -/
def ShowsTerm (cs : List Char) (t : Term) : Prop :=
  ∃ first ts, first ≠ .whole 0 ∧ first ≠ .minus ∧ Shows cs (first :: ts) ∧
    ∀ negative rest, EndsFactor rest →
      readTerms negative (first :: ts ++ rest) =
        readFactors (withSign negative t.2) t.1.factors rest

/-- The characters are read as the terms after a finished one. -/
def ShowsTail (cs : List Char) (ts : List Term) : Prop :=
  ∃ us, Breaks cs ∧ Shows cs us ∧ EndsFactor us ∧
    ∀ c fs, readFactors c fs us = some ((⟨fs⟩, c) :: ts)

variable {a b : String} {c : ℚ} {f : Symbol × ℕ} {fs : List (Symbol × ℕ)} {t : Term}
  {ts : List Term}

theorem IsCoefficientText.showsCoefficient (h : IsCoefficientText a c) :
    ShowsCoefficient a.toList c := by
  cases h with
  | @whole n hn =>
    rw [Decimal.toList_digits]
    exact ⟨n, [], hn, shows_whole n, fun negative _ hrest => readTerms_whole negative n hrest⟩
  | @fraction n d hn hd =>
    have hshows := (shows_whole n).append_mark (c := '/') (by decide) rfl (shows_whole d)
    refine ⟨n, [.over, .whole d], hn, by simpa using hshows, ?_⟩
    exact fun negative _ _ => readTerms_fraction negative n hd

theorem IsPowerText.showsFactors (h : IsPowerText a f) : ShowsFactors a.toList [f] := by
  cases h with
  | @symbol s hs =>
    refine ⟨s.name, [], shows_name hs, fun rest hrest => ⟨?_, ?_⟩⟩
    · exact fun negative => readTerms_name negative s hrest
    · exact fun c gs => readFactors_times_name c gs s hrest
  | @power s hs k =>
    have hshows := (shows_name hs).append_mark (c := '^') (by decide) rfl (shows_whole k)
    refine ⟨s.name, [.caret, .whole k], by simpa using hshows, fun rest _ => ⟨?_, ?_⟩⟩
    · exact fun negative => rfl
    · exact fun c gs => rfl

theorem endsFactor_times (ts : List Token) : EndsFactor (.times :: ts) := by
  simp [EndsFactor]

theorem IsMonomialText.showsFactors (h : IsMonomialText a fs) : ShowsFactors a.toList fs := by
  induction h with
  | power ha => exact ha.showsFactors
  | @times a b f fs ha _ ih =>
    obtain ⟨name, ts, hts, hread⟩ := ha.showsFactors
    obtain ⟨name', us, hus, hread'⟩ := ih
    have hshows := hts.append_mark (c := '*') (by decide) rfl hus
    refine ⟨name, ts ++ .times :: .name name' :: us, by simpa using hshows, ?_⟩
    intro rest hrest
    -- The first factor may begin the term or follow a `*`. The others always follow one.
    have hfirst := hread (.times :: .name name' :: us ++ rest) (endsFactor_times _)
    have hsecond := (hread' rest hrest).2
    constructor
    · intro negative
      simpa using (hfirst.1 negative).trans (hsecond (withSign negative 1) [f])
    · intro c gs
      simpa using (hfirst.2 c gs).trans (hsecond c (gs ++ [f]))

theorem IsTermText.showsTerm (h : IsTermText a t) : ShowsTerm a.toList t := by
  cases h with
  | coefficient ha =>
    obtain ⟨n, ts, hn, hts, hread⟩ := ha.showsCoefficient
    exact ⟨.whole n, ts, by simpa using hn, by simp, hts, hread⟩
  | monomial ha =>
    obtain ⟨name, ts, hts, hread⟩ := ha.showsFactors
    refine ⟨.name name, ts, by simp, by simp, hts, ?_⟩
    exact fun negative rest hrest => (hread rest hrest).1 negative
  | @product a b c fs ha hb =>
    obtain ⟨n, ts, hn, hts, hread⟩ := ha.showsCoefficient
    obtain ⟨name, us, hus, hread'⟩ := hb.showsFactors
    have hshows := hts.append_mark (c := '*') (by decide) rfl hus
    refine ⟨.whole n, ts ++ .times :: .name name :: us, by simpa using hn, by simp,
      by simpa using hshows, ?_⟩
    intro negative rest hrest
    have hfirst := hread negative (.times :: .name name :: us ++ rest) (endsFactor_times _)
    have hsecond := (hread' rest hrest).2 (withSign negative c) []
    simpa using hfirst.trans hsecond

theorem showsTail_nil : ShowsTail [] [] :=
  ⟨[], breaks_nil, shows_nil, by simp [EndsFactor], fun _ _ => rfl⟩

theorem showsTail_sign_cons (sign : Char) (u : Token) (negative : Bool) (hsign : sign ≠ ' ')
    (hu : mark? sign = some u) (hends : ∀ us, EndsFactor (u :: us))
    (hread : ∀ c fs us, readFactors c fs (u :: us) =
      (readTerms negative us).map ((⟨fs⟩, c) :: ·))
    {cs ds : List Char} (ht : ShowsTerm cs t) (hts : ShowsTail ds ts) :
    ShowsTail (' ' :: sign :: ' ' :: cs ++ ds) ((t.1, withSign negative t.2) :: ts) := by
  obtain ⟨first, us, -, -, hus, hterm⟩ := ht
  obtain ⟨vs, hbreak, hvs, hends', htail⟩ := hts
  have hcs : Shows (' ' :: sign :: ' ' :: cs) (u :: first :: us) :=
    (hus.blank_cons.mark_cons hsign hu).blank_cons
  refine ⟨_, breaks_blank _, hcs.append hvs hbreak, hends _, ?_⟩
  intro c fs
  rw [List.cons_append, hread, hterm negative vs hends', htail]
  rfl

theorem IsTailText.showsTail (h : IsTailText a ts) : ShowsTail a.toList ts := by
  induction h with
  | nil => exact showsTail_nil
  | plus ha _ ih =>
    have hplus := showsTail_sign_cons '+' .plus false (by decide) rfl (by simp [EndsFactor])
      (fun _ _ _ => rfl) ha.showsTerm ih
    simpa [withSign] using hplus
  | minus ha _ ih =>
    have hminus := showsTail_sign_cons '-' .minus true (by decide) rfl (by simp [EndsFactor])
      (fun _ _ _ => rfl) ha.showsTerm ih
    simpa [withSign] using hminus

/-- A term and a tail are read as their terms, and their first token tells them from `0`
and from a text with a sign in front. -/
theorem ShowsTerm.exists_readTerms_eq {cs ds : List Char} (ht : ShowsTerm cs t)
    (hts : ShowsTail ds ts) :
    ∃ first us, first ≠ .whole 0 ∧ first ≠ .minus ∧ Shows (cs ++ ds) (first :: us) ∧
      ∀ negative, readTerms negative (first :: us) =
        some ((t.1, withSign negative t.2) :: ts) := by
  obtain ⟨first, us, hzero, hminus, hus, hterm⟩ := ht
  obtain ⟨vs, hbreak, hvs, hends, htail⟩ := hts
  refine ⟨first, us ++ vs, hzero, hminus, hus.append hvs hbreak, ?_⟩
  intro negative
  rw [← List.cons_append, hterm negative vs hends, htail]

theorem termsOfText?_of_scan {first : Token} {us : List Token}
    (h : scan a.toList = some (first :: us)) (hzero : first ≠ .whole 0)
    (hminus : first ≠ .minus) : termsOfText? a = readTerms false (first :: us) := by
  unfold termsOfText?
  rw [h]
  grind

theorem IsSumText.termsOfText?_eq (h : IsSumText a ts) : termsOfText? a = some ts := by
  cases h with
  | zero => decide +kernel
  | plain ha hb =>
    obtain ⟨first, us, hzero, hminus, hus, hread⟩ := ha.showsTerm.exists_readTerms_eq hb.showsTail
    rw [← String.toList_append] at hus
    rw [termsOfText?_of_scan hus.scan_eq hzero hminus]
    exact hread false
  | @minus a b t ts ha hb =>
    -- The minus sign comes first, so that nothing need be known of the token after it.
    obtain ⟨first, us, -, -, hus, hread⟩ := ha.showsTerm.exists_readTerms_eq hb.showsTail
    have hsign : Shows ("-" ++ a ++ b).toList (.minus :: first :: us) := by
      simpa using hus.mark_cons (c := '-') (by decide) rfl
    unfold termsOfText?
    rw [hsign.scan_eq]
    exact hread true

end PivotCoefficients.Expression
