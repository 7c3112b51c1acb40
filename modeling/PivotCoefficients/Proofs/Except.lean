import Mathlib.Data.List.Forall2

/-!
# Computations that may fail

A computation of two steps succeeds when both do, and one step for each element
of a list or a vector when all of them do.
-/
namespace PivotCoefficients

universe u v

variable {ε : Type u} {α β γ δ : Type v}

theorem bind_eq_ok_iff {x : Except ε α} {f : α → Except ε β} {b : β} :
    (x >>= f) = .ok b ↔ ∃ a, x = .ok a ∧ f a = .ok b := by
  cases x with
  | error e => simp [bind, Except.bind]
  | ok a => simp [bind, Except.bind]

theorem bind_eq_error_iff {x : Except ε α} {f : α → Except ε β} {e : ε} :
    (x >>= f) = .error e ↔ x = .error e ∨ ∃ a, x = .ok a ∧ f a = .error e := by
  cases x with
  | error e' => simp [bind, Except.bind]
  | ok a => simp [bind, Except.bind]

theorem map_eq_ok_iff {f : α → β} {x : Except ε α} {b : β} :
    f <$> x = .ok b ↔ ∃ a, x = .ok a ∧ f a = b := by
  cases x with
  | error e => simp [Functor.map, Except.map]
  | ok a => simp [Functor.map, Except.map]

theorem map_eq_error_iff {f : α → β} {x : Except ε α} {e : ε} :
    f <$> x = .error e ↔ x = .error e := by
  cases x with
  | error e' => simp [Functor.map, Except.map]
  | ok a => simp [Functor.map, Except.map]

theorem map_bind_eq {x : Except ε α} {f : α → Except ε β} {g : γ → Except ε δ} {φ : α → γ}
    {ψ : β → δ} (h : ∀ a, ψ <$> f a = g (φ a)) : ψ <$> (x >>= f) = (φ <$> x) >>= g := by
  cases x with
  | error e => rfl
  | ok a => exact h a

theorem list_mapM_eq_ok_iff {f : α → Except ε β} {l : List α} {r : List β} :
    l.mapM f = .ok r ↔ List.Forall₂ (fun a b => f a = .ok b) l r := by
  induction l generalizing r with
  | nil => simp [pure, Except.pure, eq_comm]
  | cons a l ih =>
    rw [List.mapM_cons, bind_eq_ok_iff, List.forall₂_cons_left_iff]
    refine exists_congr fun b => ?_
    rw [bind_eq_ok_iff]
    constructor
    · rintro ⟨hb, rest, hrest, hr⟩
      exact ⟨rest, hb, ih.mp hrest, (Except.ok.inj hr).symm⟩
    · rintro ⟨rest, hb, hrest, rfl⟩
      exact ⟨hb, rest, ih.mpr hrest, rfl⟩

theorem list_forM_eq_ok_iff {f : α → Except ε PUnit} {l : List α} :
    l.forM f = .ok ⟨⟩ ↔ ∀ a ∈ l, f a = .ok ⟨⟩ := by
  induction l with
  | nil => simp [pure, Except.pure]
  | cons a l ih =>
    rw [List.forM, bind_eq_ok_iff, List.forall_mem_cons, ← ih]
    constructor
    · rintro ⟨_, ha, hl⟩
      exact ⟨ha, hl⟩
    · rintro ⟨ha, hl⟩
      exact ⟨⟨⟩, ha, hl⟩

theorem toList_mapM {n : ℕ} (f : α → Except ε β) (v : Vector α n) :
    Vector.toList <$> v.mapM f = v.toList.mapM f := by
  have harray : Vector.toArray <$> v.mapM f = v.toArray.mapM f := Vector.toArray_mapM
  calc
    Vector.toList <$> v.mapM f = Array.toList <$> (Vector.toArray <$> v.mapM f) :=
      (comp_map Vector.toArray Array.toList (v.mapM f)).trans rfl
    _ = v.toArray.toList.mapM f := by rw [harray, Array.toList_mapM]
    _ = v.toList.mapM f := rfl

@[simp] theorem vector_get_map {n : ℕ} (f : α → β) (v : Vector α n) (i : Fin n) :
    (v.map f).get i = f (v.get i) :=
  Vector.getElem_map f i.isLt

@[simp] theorem vector_get_ofFn {n : ℕ} (f : Fin n → α) (i : Fin n) : (Vector.ofFn f).get i = f i :=
  Vector.getElem_ofFn i.isLt

theorem vector_mapM_eq_ok_iff {n : ℕ} {f : α → Except ε β} {v : Vector α n} {w : Vector β n} :
    v.mapM f = .ok w ↔ ∀ i : Fin n, f (v.get i) = .ok (w.get i) := by
  have hlist : v.mapM f = .ok w ↔ v.toList.mapM f = .ok w.toList := by
    rw [← toList_mapM]
    cases v.mapM f with
    | error e => simp [Functor.map, Except.map]
    | ok w' => simp [Functor.map, Except.map, Vector.toList_inj]
  rw [hlist, list_mapM_eq_ok_iff, List.forall₂_iff_get]
  constructor
  · rintro ⟨-, h⟩ i
    have hi := h i (by simp) (by simp)
    simp only [List.get_eq_getElem, Vector.getElem_toList] at hi
    exact hi
  · intro h
    refine ⟨by simp, fun i hi _ => ?_⟩
    simp only [List.get_eq_getElem, Vector.getElem_toList]
    exact h ⟨i, by simpa using hi⟩

theorem exists_of_list_mapM_eq_error {f : α → Except ε β} {l : List α} {e : ε}
    (h : l.mapM f = .error e) : ∃ a ∈ l, f a = .error e := by
  induction l with
  | nil => cases h
  | cons a l ih =>
    rw [List.mapM_cons, bind_eq_error_iff] at h
    rcases h with ha | ⟨b, -, h⟩
    · exact ⟨a, List.mem_cons_self, ha⟩
    · rcases bind_eq_error_iff.mp h with hl | ⟨bs, -, h⟩
      · obtain ⟨c, hc, hce⟩ := ih hl
        exact ⟨c, List.mem_cons_of_mem a hc, hce⟩
      · cases h

theorem exists_of_vector_mapM_eq_error {n : ℕ} {f : α → Except ε β} {v : Vector α n} {e : ε}
    (h : v.mapM f = .error e) : ∃ i : Fin n, f (v.get i) = .error e := by
  have hlist : v.toList.mapM f = .error e := by
    rw [← toList_mapM, h]
    rfl
  obtain ⟨a, ha, hae⟩ := exists_of_list_mapM_eq_error hlist
  obtain ⟨i, hi, rfl⟩ := Vector.mem_iff_getElem.mp (Vector.mem_toList_iff.mp ha)
  exact ⟨⟨i, hi⟩, hae⟩

theorem list_mapM_map (f : α → Except ε β) (g : β → γ) (l : List α) :
    l.mapM (fun a => g <$> f a) = List.map g <$> l.mapM f := by
  induction l with
  | nil => rfl
  | cons a l ih =>
    rw [List.mapM_cons, List.mapM_cons, ih]
    cases f a with
    | error e => rfl
    | ok b => cases l.mapM f <;> rfl

theorem vector_mapM_map {n : ℕ} (f : α → Except ε β) (g : β → γ) (v : Vector α n) :
    v.mapM (fun a => g <$> f a) = Vector.map g <$> v.mapM f := by
  have hlist : Vector.toList <$> v.mapM (fun a => g <$> f a) =
      Vector.toList <$> (Vector.map g <$> v.mapM f) := by
    rw [toList_mapM, list_mapM_map, ← toList_mapM]
    cases v.mapM f with
    | error e => rfl
    | ok w => exact congrArg Except.ok Vector.toList_map.symm
  generalize v.mapM (fun a => g <$> f a) = r, Vector.map g <$> v.mapM f = s at hlist ⊢
  cases r <;> cases s <;> simp_all [Functor.map, Except.map, Vector.toList_inj]

end PivotCoefficients
