import Mathlib.Data.String.Basic
import PivotCoefficients.Symbol

/-!
# The order of names in bytes

Names are compared character by character. UTF-8 keeps that order: of two
characters the smaller one has the smaller encoding, and neither encoding begins
the other. So symbols stand in the order of the UTF-8 bytes of their names.
-/
namespace PivotCoefficients

universe u

theorem ofNat_cons_lt_ofNat_cons_iff {x y : ℕ} (hx : x < 256) (hy : y < 256) {l m : List UInt8} :
    UInt8.ofNat x :: l < UInt8.ofNat y :: m ↔ x < y ∨ x = y ∧ l < m := by
  have hxn : (UInt8.ofNat x).toNat = x := UInt8.toNat_ofNat_of_lt' hx
  have hyn : (UInt8.ofNat y).toNat = y := UInt8.toNat_ofNat_of_lt' hy
  rw [List.cons_lt_cons_iff, UInt8.lt_iff_toNat_lt, ← UInt8.toNat_inj, hxn, hyn]

/-- The first byte in which the encodings of two characters differ decides as the
characters do, whatever follows. -/
theorem utf8EncodeChar_append_lt {c d : Char} (h : c < d) (l m : List UInt8) :
    String.utf8EncodeChar c ++ l < String.utf8EncodeChar d ++ m := by
  have hcd : c.val.toNat < d.val.toNat := h
  have hd : d.val.toNat < 0x110000 := by
    rcases d.valid with h | h
    · exact h.trans (by decide)
    · exact h.2
  unfold String.utf8EncodeChar
  generalize c.val.toNat = x at hcd ⊢
  generalize d.val.toNat = y at hcd hd ⊢
  -- the bytes are digits in base 64, which `omega` has to be told of four bytes
  have hx₁ := Nat.div_div_eq_div_mul x 64 64
  have hx₂ := Nat.div_div_eq_div_mul x 4096 64
  have hx₃ : x / 262144 % 8 = x / 262144 := by omega
  have hy₁ := Nat.div_div_eq_div_mul y 64 64
  have hy₂ := Nat.div_div_eq_div_mul y 4096 64
  have hy₃ : y / 262144 % 8 = y / 262144 := by omega
  dsimp only
  split_ifs
  all_goals
    simp (disch := omega) only [hx₃, hy₃, List.cons_append, List.nil_append,
      ofNat_cons_lt_ofNat_cons_iff]
    omega

theorem flatMap_utf8EncodeChar_lt {l m : List Char} (h : l < m) :
    l.flatMap String.utf8EncodeChar < m.flatMap String.utf8EncodeChar := by
  induction h with
  | @nil d m =>
    rw [List.flatMap_nil, List.flatMap_cons]
    cases hd : String.utf8EncodeChar d with
    | nil => exact absurd hd String.utf8EncodeChar_ne_nil
    | cons b bs => exact List.nil_lt_cons b _
  | rel hcd =>
    rw [List.flatMap_cons, List.flatMap_cons]
    exact utf8EncodeChar_append_lt hcd _ _
  | @cons c l m _ ih =>
    rw [List.flatMap_cons, List.flatMap_cons]
    exact List.append_left_lt ih

theorem exists_split_of_exists {α : Type u} {P : α → Prop} {l : List α} (h : ∃ a ∈ l, P a) :
    ∃ before a after, l = before ++ a :: after ∧ (∀ b ∈ before, ¬ P b) ∧ P a := by
  induction l with
  | nil => simp at h
  | cons c l ih =>
    by_cases hc : P c
    · exact ⟨[], c, l, rfl, by simp, hc⟩
    · obtain ⟨a, ha, hPa⟩ := h
      have hal : a ∈ l := (List.mem_cons.mp ha).resolve_left (by rintro rfl; exact hc hPa)
      obtain ⟨before, b, after, rfl, hbefore, hb⟩ := ih ⟨a, hal, hPa⟩
      exact ⟨c :: before, b, after, rfl, List.forall_mem_cons.mpr ⟨hc, hbefore⟩, hb⟩

namespace Symbol

variable {s t : Symbol}

def bytes (s : Symbol) : List UInt8 := s.name.toUTF8.data.toList

theorem bytes_eq (s : Symbol) : s.bytes = s.name.toList.flatMap String.utf8EncodeChar := by
  rw [bytes, String.toUTF8_eq_toByteArray, ← String.utf8Encode_toList, List.utf8Encode,
    List.toList_data_toByteArray]

theorem bytes_lt_of_compare (h : compare s t = .lt) : s.bytes < t.bytes := by
  have hlt : s.name < t.name := compareOfLessAndEq_eq_lt.mp h
  rw [bytes_eq, bytes_eq]
  exact flatMap_utf8EncodeChar_lt hlt

/-- Symbols stand in the order of the UTF-8 bytes of their names. -/
theorem compare_eq_lt_iff : compare s t = .lt ↔ s.bytes < t.bytes := by
  refine ⟨bytes_lt_of_compare, fun h => ?_⟩
  cases hst : compare s t with
  | lt => rfl
  | eq =>
    obtain rfl := Std.LawfulEqOrd.eq_of_compare hst
    exact absurd h (List.lt_irrefl _)
  | gt =>
    have hts : compare t s = .lt := by rw [Std.OrientedOrd.eq_swap, hst, Ordering.swap_gt]
    exact absurd (bytes_lt_of_compare hts) (List.lt_asymm h)

/-- Of the symbols with the property `P`, the one whose name is least in UTF-8 bytes. -/
def IsFirst (P : Symbol → Prop) (s : Symbol) : Prop :=
  P s ∧ ∀ t, P t → t ≠ s → s.bytes < t.bytes

/-- The first symbol of an ascending list that has a property, with the symbols
before and after it. -/
theorem exists_first {P : Symbol → Prop} {l : List Symbol}
    (hl : l.Pairwise (fun s t => (compare s t).isLE)) (h : ∃ s ∈ l, P s) :
    ∃ before s after, l = before ++ s :: after ∧ (∀ t ∈ before, ¬ P t) ∧ P s ∧
      IsFirst (fun t => t ∈ l ∧ P t) s := by
  obtain ⟨before, s, after, rfl, hbefore, hPs⟩ := exists_split_of_exists h
  refine ⟨before, s, after, rfl, hbefore, hPs, ⟨by simp, hPs⟩, ?_⟩
  rintro t ⟨ht, hPt⟩ hne
  have hafter : t ∈ after := by
    rcases List.mem_append.mp ht with ht | ht
    · exact absurd hPt (hbefore t ht)
    · exact (List.mem_cons.mp ht).resolve_left hne
  have hle := List.rel_of_pairwise_cons (List.pairwise_append.mp hl).2.1 hafter
  rcases Ordering.isLE_iff_eq_lt_or_eq_eq.mp hle with hlt | heq
  · exact compare_eq_lt_iff.mp hlt
  · exact absurd (Std.LawfulEqOrd.eq_of_compare heq).symm hne

end Symbol

end PivotCoefficients
