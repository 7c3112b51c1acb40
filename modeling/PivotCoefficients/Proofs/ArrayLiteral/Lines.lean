import PivotCoefficients.ArrayLiteral.Emission
import PivotCoefficients.Proofs.ArrayLiteral.Rendering

/-!
# Lines of emitted arrays

The lines of an emitted array can be read off its text again, as long as none of
the chosen texts breaks a line.
-/
namespace PivotCoefficients

/-- The pieces between line ends. The last piece is what follows the last line end. -/
def textLines (text : String) : List String :=
  (text.toList.splitOn '\n').map String.ofList

def IsSingleLine (text : String) : Prop := '\n' ∉ text.toList

instance (text : String) : Decidable (IsSingleLine text) := by
  unfold IsSingleLine
  infer_instance

theorem textLines_append_newline (a b : String) :
    textLines (a ++ "\n" ++ b) = textLines a ++ textLines b := by
  have hbreak : (a ++ "\n" ++ b).toList = a.toList ++ '\n' :: b.toList := by simp
  rw [textLines, hbreak, List.splitOn_append_cons_self, List.map_append]
  rfl

theorem IsSingleLine.textLines_eq {text : String} (h : IsSingleLine text) :
    textLines text = [text] := by
  rw [textLines, List.splitOn_eq_singleton h, List.map_singleton, String.ofList_toList]

theorem textLines_join {ls : List String} (h : ∀ l ∈ ls, IsSingleLine l) :
    textLines (String.join (ls.map (· ++ "\n"))) = ls ++ [""] := by
  induction ls with
  | nil => rfl
  | cons l ls ih =>
    obtain ⟨hl, hls⟩ := List.forall_mem_cons.mp h
    rw [List.map_cons, String.join_cons, textLines_append_newline, hl.textLines_eq, ih hls]
    rfl

theorem IsSingleLine.append {a b : String} (ha : IsSingleLine a) (hb : IsSingleLine b) :
    IsSingleLine (a ++ b) := by
  unfold IsSingleLine
  rw [String.toList_append]
  exact fun h => (List.mem_append.mp h).elim ha hb

theorem Symbol.isSingleLine {s : Symbol} (hs : s.isIdentifier) : IsSingleLine s.name :=
  Token.newline_not_mem_of_scan (Token.shows_name hs).scan_eq

theorem Decimal.isSingleLine_digits (n : ℕ) : IsSingleLine (digits n) := by
  unfold IsSingleLine
  rw [toList_digits]
  exact Token.newline_not_mem_of_scan (Token.shows_whole n).scan_eq

theorem Formula.isSingleLine_of_read? {text : String} {f : Formula} (h : read? text = some f) :
    IsSingleLine text := by
  obtain ⟨ts, hts, -⟩ := Option.bind_eq_some_iff.mp h
  exact Token.newline_not_mem_of_scan hts

namespace ArrayStyle

/-- No chosen text breaks a line. -/
structure HasSingleLines (style : ArrayStyle) : Prop where
  arrayName : IsSingleLine style.arrayName
  comment : ∀ c ∈ style.comment, IsSingleLine c
  indent : IsSingleLine style.indent

variable {style : ArrayStyle}

theorem HasSingleLines.commentFor (h : style.HasSingleLines) {pivot : Symbol}
    (hp : IsSingleLine pivot.name) : IsSingleLine (style.commentFor pivot) := by
  unfold ArrayStyle.commentFor
  cases hc : style.comment with
  | none =>
    have hstart : IsSingleLine "Coefficients in ascending powers of " := by decide
    have hpivot := (hstart.append hp).append (by decide : IsSingleLine ", i.e. ")
    exact (((hpivot.append h.arrayName).append (by decide)).append hp).append (by decide)
  | some c => exact h.comment c hc

end ArrayStyle

namespace Target

theorem isSingleLine_comment (t : Target) {text : String} (h : IsSingleLine text) :
    IsSingleLine (t.commentMarker ++ " " ++ text) := by
  have hmarker : IsSingleLine (t.commentMarker ++ " ") := by cases t <;> decide
  exact hmarker.append h

theorem isSingleLine_openArray (t : Target) {name : String} (h : IsSingleLine name) (n : ℕ) :
    IsSingleLine (t.openArray name n) := by
  have hn := Decimal.isSingleLine_digits n
  cases t with
  | c =>
    have hstart : IsSingleLine "double " := by decide
    exact (((hstart.append h).append (by decide)).append hn).append (by decide)
  | rust =>
    have hstart : IsSingleLine "let " := by decide
    exact (((hstart.append h).append (by decide)).append hn).append (by decide)
  | python => exact h.append (by decide)

theorem isSingleLine_closeArray (t : Target) : IsSingleLine t.closeArray := by
  cases t <;> decide

end Target

namespace CoefficientTable

variable {t : CoefficientTable} {style : ArrayStyle}

/-- The lines of an emitted array: comment, opening line, elements, closing line. -/
theorem textLines_emit (hstyle : style.HasSingleLines) (hpivot : IsSingleLine t.pivot.name)
    (hcoefficients : ∀ e ∈ t.coefficients, IsSingleLine (e.render style.target.spelling)) :
    textLines (t.emit style) =
      (style.target.commentMarker ++ " " ++ style.commentFor t.pivot) ::
      style.target.openArray style.arrayName t.size ::
      (t.coefficients.map (fun e => style.indent ++ e.render style.target.spelling ++ ",") ++
        [style.target.closeArray, ""]) := by
  have hlines : ∀ l ∈ t.lines style style.target.spelling, IsSingleLine l := by
    unfold lines
    rw [List.forall_mem_cons, List.forall_mem_cons, List.forall_mem_append, List.forall_mem_map,
      List.forall_mem_singleton]
    refine ⟨style.target.isSingleLine_comment (hstyle.commentFor hpivot),
      style.target.isSingleLine_openArray hstyle.arrayName t.size, ?_,
      style.target.isSingleLine_closeArray⟩
    intro e he
    have hseparator : IsSingleLine style.target.spelling.separator :=
      (by decide : IsSingleLine ",")
    exact (hstyle.indent.append (hcoefficients e he)).append hseparator
  unfold emit emitWith
  rw [textLines_join hlines]
  simp [lines, elementLine, Target.spelling]

end CoefficientTable

end PivotCoefficients
