import Mathlib.Data.Finset.Card
import Mathlib.Data.List.Basic
import PivotCoefficients.Proofs.SymbolTable.Declaration

/-!
# Histories of a symbol table

A table is made by declarations, of one name or of several at a time. Whatever these
were, it lists the names declared so far in the order of their first declaration, and
its index leads to each of them. What it answers depends on nothing else.
-/
namespace PivotCoefficients.SymbolTable

/-- A call that declares a name, or several from left to right. -/
inductive Declaration where
  | single (name : String)
  | several (names : List String)

def Declaration.names : Declaration → List String
  | .single name => [name]
  | .several names => names

/-- The symbols that a call returns, and the table after it. -/
def apply (t : SymbolTable) : Declaration → List Symbol × SymbolTable
  | .single name => ([(t.declare name).1], (t.declare name).2)
  | .several names => t.declareAll names

/-- The symbols that each of the calls returns, and the table after the last one. -/
def applyAll (t : SymbolTable) : List Declaration → List (List Symbol) × SymbolTable
  | [] => ([], t)
  | call :: rest =>
    let (symbols, t) := t.apply call
    let (returned, t) := t.applyAll rest
    (symbols :: returned, t)

/-- The table lists the names of the history by the place of their first declaration,
and its index agrees with the list. -/
structure Records (t : SymbolTable) (history : List String) : Prop where
  isConsistent : t.IsConsistent
  mem_names : ∀ {name}, name ∈ t.names ↔ name ∈ history
  names_ascending : t.names.Pairwise (fun m n => history.idxOf m < history.idxOf n)

/-- What can be asked of a table that records the history. -/
structure Answers (t : SymbolTable) (history : List String) : Prop extends t.Records history where
  nodup_names : t.names.Nodup
  size_eq : t.size = history.toFinset.card
  declare_eq : ∀ name ∈ history, t.declare name = (⟨name⟩, t)
  declareAll_eq : ∀ names ⊆ history, t.declareAll names = (names.map Symbol.mk, t)
  contains_iff : ∀ name, t.contains name ↔ name ∈ history
  lookup_eq : ∀ name, t.lookup name =
    if name ∈ history then .ok ⟨name⟩ else .error (.unknownSymbol name)
  require_eq : ∀ s : Symbol, t.require s =
    if s.name ∈ history then .ok () else .error (.unknownSymbol s.name)

variable {t : SymbolTable} {history : List String}

theorem records_empty : empty.Records [] where
  isConsistent := isConsistent_empty
  mem_names := by simp
  names_ascending := by simp

namespace Records

theorem names_ascending_append (h : t.Records history) (later : List String) :
    t.names.Pairwise (fun m n => (history ++ later).idxOf m < (history ++ later).idxOf n) := by
  refine h.names_ascending.imp_of_mem ?_
  intro m n hm hn hlt
  rw [List.idxOf_append_of_mem (h.mem_names.mp hm), List.idxOf_append_of_mem (h.mem_names.mp hn)]
  exact hlt

theorem nodup_names (h : t.Records history) : t.names.Nodup := by
  refine h.names_ascending.imp ?_
  rintro m _ hlt rfl
  exact Nat.lt_irrefl _ hlt

theorem declare (h : t.Records history) (name : String) :
    (t.declare name).2.Records (history ++ [name]) where
  isConsistent := h.isConsistent.declare name
  mem_names := by
    intro other
    rw [h.isConsistent.mem_names_declare, h.mem_names, List.mem_append, List.mem_singleton]
  names_ascending := by
    have hkept := h.names_ascending_append [name]
    rw [h.isConsistent.names_declare]
    by_cases hn : name ∈ t.names
    · rw [if_pos hn]
      exact hkept
    · rw [if_neg hn, List.pairwise_append]
      refine ⟨hkept, List.pairwise_singleton _ _, ?_⟩
      -- a known name stands within the history, a new one right behind it
      intro m hm n hsingleton
      obtain rfl := List.mem_singleton.mp hsingleton
      have hm' := h.mem_names.mp hm
      rw [List.idxOf_append_of_mem hm', List.idxOf_append_of_notMem (h.mem_names.not.mp hn)]
      exact Nat.lt_add_right _ (List.idxOf_lt_length_of_mem hm')

theorem declareAll (h : t.Records history) (names : List String) :
    (t.declareAll names).2.Records (history ++ names) := by
  induction names generalizing t history with
  | nil => simpa using h
  | cons name names ih =>
    have htail := ih (h.declare name)
    rw [List.append_assoc, List.singleton_append] at htail
    exact htail

theorem apply (h : t.Records history) (call : Declaration) :
    (t.apply call).2.Records (history ++ call.names) := by
  cases call with
  | single name => exact h.declare name
  | several names => exact h.declareAll names

theorem applyAll (h : t.Records history) (calls : List Declaration) :
    (t.applyAll calls).2.Records (history ++ calls.flatMap Declaration.names) := by
  induction calls generalizing t history with
  | nil => simpa [SymbolTable.applyAll] using h
  | cons call calls ih =>
    rw [List.flatMap_cons, ← List.append_assoc]
    exact ih (h.apply call)

end Records

namespace IsConsistent

theorem declareAll_fst (h : t.IsConsistent) (names : List String) :
    (t.declareAll names).1 = names.map Symbol.mk := by
  induction names generalizing t with
  | nil => rfl
  | cons name names ih =>
    rw [declareAll_cons, h.declare_fst, ih (h.declare name), List.map_cons]

theorem declareAll_of_subset (h : t.IsConsistent) {names : List String} (hnames : names ⊆ t.names) :
    t.declareAll names = (names.map Symbol.mk, t) := by
  induction names with
  | nil => rfl
  | cons name names ih =>
    obtain ⟨hname, hnames⟩ := List.cons_subset.mp hnames
    rw [declareAll_cons, h.declare_of_mem hname, ih hnames, List.map_cons]

theorem apply_fst (h : t.IsConsistent) (call : Declaration) :
    (t.apply call).1 = call.names.map Symbol.mk := by
  cases call with
  | single name => exact congrArg ([·]) (h.declare_fst name)
  | several names => exact h.declareAll_fst names

end IsConsistent

theorem Records.applyAll_fst (h : t.Records history) (calls : List Declaration) :
    (t.applyAll calls).1 = calls.map (fun call => call.names.map Symbol.mk) := by
  induction calls generalizing t history with
  | nil => rfl
  | cons call calls ih =>
    rw [List.map_cons, ← h.isConsistent.apply_fst call, ← ih (h.apply call)]
    rfl

/-- What is recorded settles every answer. -/
theorem Records.answers (h : t.Records history) : t.Answers history where
  toRecords := h
  nodup_names := h.nodup_names
  size_eq := by
    have hfinset : t.names.toFinset = history.toFinset := by
      ext name
      rw [List.mem_toFinset, List.mem_toFinset, h.mem_names]
    rw [← hfinset, List.toFinset_card_of_nodup h.nodup_names, names, List.length_map, size,
      Array.length_toList]
  declare_eq name hname := h.isConsistent.declare_of_mem (h.mem_names.mpr hname)
  declareAll_eq names hnames :=
    h.isConsistent.declareAll_of_subset fun _ hname => h.mem_names.mpr (hnames hname)
  contains_iff _ := h.isConsistent.contains_iff.trans h.mem_names
  lookup_eq name := by
    simp only [lookup, h.isConsistent.find?_eq, h.mem_names]
    split_ifs <;> rfl
  require_eq s := by
    simp only [require, h.isConsistent.contains_iff, h.mem_names]

/-- Whatever is declared in an empty table, one name at a time or several at once, each
call returns symbols of the names asked for. The table then lists the names declared
so far, in the order of their first declaration, and answers for exactly these, also
when it is asked with a symbol that another table made. -/
theorem declarations_outcome (calls : List Declaration) :
    (empty.applyAll calls).1 = calls.map (fun call => call.names.map Symbol.mk) ∧
      (empty.applyAll calls).2.Answers (calls.flatMap Declaration.names) :=
  ⟨records_empty.applyAll_fst calls, (records_empty.applyAll calls).answers⟩

end PivotCoefficients.SymbolTable
