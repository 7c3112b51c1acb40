import Mathlib.Data.List.TakeWhile
import PivotCoefficients.CommandLine.Grammar

/-!
# Arguments and their forms

An argument can be put together again from its form, and every form that an
option can take comes from the argument that spells it. The names of options
tell the options apart.
-/
namespace PivotCoefficients.CommandLine

namespace Word

def text : Word → String
  | .dashes => "--"
  | .long name none => "--" ++ name
  | .long name (some value) => "--" ++ name ++ "=" ++ value
  | .short letters => String.ofList ('-' :: letters)
  | .plain text => text

theorem text_ofLong (cs : List Char) : (ofLong cs).text = "--" ++ String.ofList cs := by
  unfold ofLong
  split
  · rfl
  · next c value h =>
    have hhead := List.head?_dropWhile_not (fun c => decide (c ≠ '=')) cs
    rw [h] at hhead
    have hc : c = '=' := by simpa using hhead
    have hsplit := List.takeWhile_append_dropWhile (p := fun c => decide (c ≠ '=')) (l := cs)
    rw [h, hc] at hsplit
    have hcs := congrArg String.ofList hsplit
    rw [String.ofList_append, String.ofList_cons] at hcs
    rw [text, ← hcs]
    simp [String.append_assoc]

/-- The form of an argument keeps all of it. -/
theorem text_ofArgument (argument : String) : (ofArgument argument).text = argument := by
  rw [← String.ofList_toList (s := argument)]
  unfold ofArgument
  rw [String.toList_ofList]
  split
  · next h => rw [h]; rfl
  · next rest h => rw [h, text_ofLong, String.ofList_cons, String.ofList_cons]; rfl
  · next l rest h => rw [h]; rfl
  · rw [text, String.ofList_toList]

theorem isPlain_ofLong (cs : List Char) : (ofLong cs).isPlain = false := by
  unfold ofLong
  split <;> rfl

theorem isPlain_ofArgument_iff {argument : String} :
    (ofArgument argument).isPlain = true ↔
      (argument.toList.head? = some '-' → argument = "-") := by
  rw [← String.toList_inj]
  unfold ofArgument
  split
  · next h => simp [h, isPlain]
  · next rest h => simp [h, isPlain_ofLong]
  · next l rest h => simp [h, isPlain]
  · next hdashes hlong hshort =>
    refine iff_of_true rfl fun hhead => ?_
    obtain ⟨rest, hrest⟩ := List.head?_eq_some_iff.mp hhead
    cases rest with
    | nil => exact hrest
    | cons l rest => exact absurd hrest (hshort l rest)

theorem ofLong_of_not_mem {cs : List Char} (h : '=' ∉ cs) :
    ofLong cs = .long (String.ofList cs) none := by
  have hall : ∀ c ∈ cs, decide (c ≠ '=') :=
    fun c hc => decide_eq_true (ne_of_mem_of_not_mem hc h)
  rw [ofLong, List.dropWhile_eq_nil_iff.mpr hall]

theorem ofLong_append {cs : List Char} (h : '=' ∉ cs) (value : List Char) :
    ofLong (cs ++ '=' :: value) = .long (String.ofList cs) (some (String.ofList value)) := by
  have hall : ∀ c ∈ cs, decide (c ≠ '=') :=
    fun c hc => decide_eq_true (ne_of_mem_of_not_mem hc h)
  rw [ofLong, List.dropWhile_append_of_pos hall, List.takeWhile_append_of_pos hall]
  simp

theorem ofArgument_long {name : String} (hne : name ≠ "") (hname : '=' ∉ name.toList)
    (value : Option String) : ofArgument (Word.long name value).text = .long name value := by
  obtain ⟨c, cs, hcs⟩ : ∃ c cs, name.toList = c :: cs :=
    List.exists_cons_of_ne_nil (fun h => hne (String.toList_eq_nil_iff.mp h))
  cases value with
  | none =>
    have hlong := ofLong_of_not_mem hname
    rw [String.ofList_toList, hcs] at hlong
    simp [ofArgument, text, hcs, hlong]
  | some value =>
    have hlong := ofLong_append hname value.toList
    rw [String.ofList_toList, String.ofList_toList, hcs, List.cons_append] at hlong
    simp [ofArgument, text, hcs, hlong]

theorem ofArgument_short {l : Char} (hl : l ≠ '-') (letters : List Char) :
    ofArgument (Word.short (l :: letters)).text = .short (l :: letters) := by
  simp [ofArgument, text, hl]

end Word

namespace ValueOption

theorem ofName?_name (o : ValueOption) : ofName? o.name = some o := by
  cases o <;> rfl

theorem eq_name_of_ofName? {name : String} {o : ValueOption} (h : ofName? name = some o) :
    name = o.name := by
  have hname := List.find?_some (p := fun o : ValueOption => decide (o.name = name)) h
  exact (of_decide_eq_true hname).symm

theorem ofName?_switchName (s : Switch) : ofName? s.name = none := by
  cases s <;> decide

theorem name_ne_empty (o : ValueOption) : o.name ≠ "" := by
  cases o <;> decide

theorem not_mem_name (o : ValueOption) : '=' ∉ o.name.toList := by
  cases o <;> decide

end ValueOption

namespace Switch

theorem ofName?_name (s : Switch) : ofName? s.name = some s := by
  cases s <;> rfl

theorem eq_name_of_ofName? {name : String} {s : Switch} (h : ofName? name = some s) :
    name = s.name := by
  have hname := List.find?_some (p := fun s : Switch => decide (s.name = name)) h
  exact (of_decide_eq_true hname).symm

theorem ofLetter?_eq_some_iff {l : Char} {s : Switch} :
    ofLetter? l = some s ↔
      l = 'v' ∧ s = .verbose ∨ l = 'V' ∧ s = .version ∨ l = 'h' ∧ s = .help := by
  unfold ofLetter?
  split <;> simp_all [eq_comm]

theorem name_ne_empty (s : Switch) : s.name ≠ "" := by
  cases s <;> decide

theorem not_mem_name (s : Switch) : '=' ∉ s.name.toList := by
  cases s <;> decide

end Switch

end PivotCoefficients.CommandLine
