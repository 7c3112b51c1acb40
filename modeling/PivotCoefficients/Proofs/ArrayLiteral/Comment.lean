import PivotCoefficients.Proofs.ArrayLiteral.Lines
import PivotCoefficients.Proofs.CoefficientTable.Collection

/-!
# Comments and code

The comment of an emitted array is any text at all, and it is written as it is. Its
first line becomes the comment line. What follows a line break in it stands on lines of
its own, and those that do not begin as comment lines do are read as code. So another
comment leaves the code alone exactly when the same lines stray into it, and from a
comment without line breaks none do.
-/
namespace PivotCoefficients

theorem splitOn_append_of_notMem {α : Type} [BEq α] [LawfulBEq α] {a : α} {p : List α}
    (h : a ∉ p) (s : List α) : (p ++ s).splitOn a = (s.splitOn a).modifyHead (p ++ ·) := by
  induction p with
  | nil => exact (congrFun List.modifyHead_id _).symm
  | cons b p ih =>
    have hb : ¬ (b == a) = true := fun heq => h (eq_of_beq heq ▸ List.mem_cons_self)
    have hp : a ∉ p := fun hmem => h (List.mem_cons_of_mem b hmem)
    rw [List.cons_append, List.splitOn_cons_eq_if_modifyHead, if_neg hb, ih hp,
      List.modifyHead_modifyHead]
    rfl

theorem exists_textLines_append {p : String} (h : IsSingleLine p) (s : String) :
    ∃ first, textLines (p ++ s) = (p ++ first) :: (textLines s).tail := by
  obtain ⟨first, rest, hs⟩ := List.exists_cons_of_ne_nil (List.splitOn_ne_nil '\n' s.toList)
  refine ⟨String.ofList first, ?_⟩
  rw [textLines, textLines, String.toList_append, splitOn_append_of_notMem h, hs]
  simp

namespace Target

def IsCommentLine (t : Target) (line : String) : Prop :=
  t.commentMarker.toList <+: line.toList

instance (t : Target) (line : String) : Decidable (t.IsCommentLine line) := by
  unfold IsCommentLine
  infer_instance

def codeLines (t : Target) (text : String) : List String :=
  (textLines text).filter (fun l => ¬ t.IsCommentLine l)

/-- The lines of a comment that are code: not the first, and not comment lines. -/
def strayLines (t : Target) (comment : String) : List String :=
  (textLines comment).tail.filter (fun l => ¬ t.IsCommentLine l)

theorem codeLines_append_newline (t : Target) (a b : String) :
    t.codeLines (a ++ "\n" ++ b) = t.codeLines a ++ t.codeLines b := by
  rw [codeLines, textLines_append_newline, List.filter_append]
  rfl

/-- Behind its marker, a comment adds its stray lines to the code and nothing else. -/
theorem codeLines_comment (t : Target) (comment : String) :
    t.codeLines (t.commentMarker ++ " " ++ comment) = t.strayLines comment := by
  have hmarker : IsSingleLine (t.commentMarker ++ " ") := by cases t <;> decide
  obtain ⟨first, hlines⟩ := exists_textLines_append hmarker comment
  have hfirst : t.IsCommentLine (t.commentMarker ++ " " ++ first) := by
    rw [IsCommentLine, String.toList_append, String.toList_append, List.append_assoc]
    exact List.prefix_append _ _
  rw [codeLines, hlines, List.filter_cons_of_neg (by simpa using hfirst)]
  rfl

theorem strayLines_of_isSingleLine (t : Target) {comment : String} (h : IsSingleLine comment) :
    t.strayLines comment = [] := by
  rw [strayLines, h.textLines_eq]
  rfl

end Target

namespace CoefficientTable

def body (t : CoefficientTable) (style : ArrayStyle) : String :=
  String.join ((t.lines style style.target.spelling).tail.map (· ++ "\n"))

theorem emit_eq (t : CoefficientTable) (style : ArrayStyle) :
    t.emit style =
      style.target.commentMarker ++ " " ++ style.commentFor t.pivot ++ "\n" ++ t.body style := by
  rw [emit, emitWith, lines, List.map_cons, String.join_cons]
  rfl

/-- The code of an emitted array: what strays from the comment, then the array. -/
theorem codeLines_emit (t : CoefficientTable) (style : ArrayStyle) :
    style.target.codeLines (t.emit style) =
      style.target.strayLines (style.commentFor t.pivot) ++
        style.target.codeLines (t.body style) := by
  rw [emit_eq, Target.codeLines_append_newline, Target.codeLines_comment]

/-- Another comment leaves the code as it is exactly when the same lines stray from both,
and so it does when both are single lines. -/
theorem codeLines_emit_eq_iff (t : CoefficientTable) (style : ArrayStyle)
    (comment : Option String) :
    let other : ArrayStyle := { style with comment }
    (style.target.codeLines (t.emit style) = style.target.codeLines (t.emit other) ↔
      style.target.strayLines (style.commentFor t.pivot) =
        style.target.strayLines (other.commentFor t.pivot)) ∧
    (IsSingleLine (style.commentFor t.pivot) → IsSingleLine (other.commentFor t.pivot) →
      style.target.codeLines (t.emit style) = style.target.codeLines (t.emit other)) := by
  intro other
  have hcode := t.codeLines_emit style
  have hother : style.target.codeLines (t.emit other) =
      style.target.strayLines (other.commentFor t.pivot) ++
        style.target.codeLines (t.body style) := t.codeLines_emit other
  rw [hcode, hother]
  refine ⟨List.append_left_inj _, fun hline hline' => ?_⟩
  rw [Target.strayLines_of_isSingleLine _ hline, Target.strayLines_of_isSingleLine _ hline']

theorem codeLines_emit_eq_iff_single_line :
    let x : Symbol := ⟨"x"⟩
    let e : Expression := ⟨[(.var x, 1), (.one, -1)]⟩
    ∃ t, e.collect x 1 = .ok t ∧
      Target.python.codeLines (t.emit { target := .python }) =
        Target.python.codeLines (t.emit { target := .python, comment := "x - 1 at x" }) := by
  intro x e
  obtain ⟨t, ht⟩ := Expression.collect_of_degreeIn_le (by decide : e.degreeIn x ≤ 1)
  have hpivot : t.pivot = x := (Expression.collect_eq_ok ht).2.1
  exact ⟨t, ht, (codeLines_emit_eq_iff t { target := .python } "x - 1 at x").2
    (by rw [hpivot]; decide +kernel) (by rw [hpivot]; decide +kernel)⟩

/-- A line break in a comment makes code of the rest of it. -/
theorem codeLines_emit_ne_of_line_break :
    let x : Symbol := ⟨"x"⟩
    let e : Expression := ⟨[(.var x, 1), (.one, -1)]⟩
    ∃ t, e.collect x 1 = .ok t ∧
      Target.c.codeLines (t.emit {}) ≠
        Target.c.codeLines (t.emit { comment := "line1\nline2" }) := by
  intro x e
  obtain ⟨t, ht⟩ := Expression.collect_of_degreeIn_le (by decide : e.degreeIn x ≤ 1)
  refine ⟨t, ht, fun heq => ?_⟩
  have hcode := t.codeLines_emit {}
  have hother := t.codeLines_emit { comment := "line1\nline2" }
  have hstray := List.append_cancel_right (hcode.symm.trans (heq.trans hother))
  rw [(Expression.collect_eq_ok ht).2.1] at hstray
  exact absurd hstray (by decide +kernel)

end CoefficientTable

end PivotCoefficients
