import Mathlib.Data.List.Pairwise
import Mathlib.Data.List.Perm.Basic

/-!
# A list read as a map

Entries `V` with a key each (`key : V → κ`); an operation works on the **first** entry with the key
asked for. `find` reads it, `put` changes it in place or, where there is none, puts a new entry in
front, `erase` takes it out. Over a list whose keys are `Distinct` these are the operations of a map:
what is put is found, what is erased is not, and no other key sees either.
-/

namespace Assoc

variable {V κ : Type} [DecidableEq κ] (key : V → κ)

/-- The first entry with key `k`. -/
def find (k : κ) : List V → Option V
  | [] => none
  | v :: vs => if key v = k then some v else find k vs

/-- `f` at the first entry with key `k`, or `new` in front. -/
def put (k : κ) (f : V → V) (new : V) (vs : List V) : List V :=
  if vs.any fun v => key v = k then modify k vs else new :: vs
where
  /-- `f` at the first entry with key `k`. -/
  modify (k : κ) : List V → List V
    | [] => []
    | v :: vs => if key v = k then f v :: vs else v :: modify k vs

/-- The list without the first entry with key `k`. -/
def erase (k : κ) : List V → List V
  | [] => []
  | v :: vs => if key v = k then vs else v :: erase k vs

/-- No two entries have the same key. -/
def Distinct (vs : List V) : Prop := vs.Pairwise fun a b => key a ≠ key b

variable {key} {k k' : κ} {f : V → V} {new v : V} {vs : List V}

theorem find_eq_none : find key k vs = none ↔ ∀ v ∈ vs, key v ≠ k := by
  induction vs with
  | nil => simp [find]
  | cons v vs ih =>
    by_cases hv : key v = k
    · simp [find, hv]
    · simp [find, hv, ih]

/-- Where the keys are distinct, the order of the entries does not matter. -/
theorem find_eq_some (hd : Distinct key vs) : find key k vs = some v ↔ v ∈ vs ∧ key v = k := by
  induction vs with
  | nil => simp [find]
  | cons u vs ih =>
    obtain ⟨hu, hd⟩ := List.pairwise_cons.1 hd
    by_cases hk : key u = k
    · rw [find, if_pos hk, Option.some.injEq]
      constructor
      · rintro rfl
        exact ⟨by simp, hk⟩
      · rintro ⟨hv, hkv⟩
        rcases List.mem_cons.1 hv with rfl | hv
        · rfl
        · exact absurd (hk.trans hkv.symm) (hu v hv)
    · rw [find, if_neg hk, ih hd, List.mem_cons]
      constructor
      · rintro ⟨hv, hkv⟩
        exact ⟨.inr hv, hkv⟩
      · rintro ⟨rfl | hv, hkv⟩
        · exact absurd hkv hk
        · exact ⟨hv, hkv⟩

theorem any_eq_false : (vs.any fun v => decide (key v = k)) = false ↔ find key k vs = none := by
  simp [find_eq_none]

/-! ## Putting -/

theorem map_key_modify (hf : ∀ v, key (f v) = key v) : (put.modify key f k vs).map key = vs.map key := by
  induction vs with
  | nil => rfl
  | cons v vs ih =>
    by_cases hv : key v = k
    · simp [put.modify, hv, hf]
    · simp [put.modify, hv, ih]

theorem find_modify_self (hf : ∀ v, key (f v) = key v) :
    find key k (put.modify key f k vs) = (find key k vs).map f := by
  induction vs with
  | nil => rfl
  | cons v vs ih =>
    by_cases hv : key v = k
    · simp [put.modify, find, hv, hf]
    · simp [put.modify, find, hv, ih]

theorem find_modify_ne (hf : ∀ v, key (f v) = key v) (h : k' ≠ k) :
    find key k' (put.modify key f k vs) = find key k' vs := by
  induction vs with
  | nil => rfl
  | cons v vs ih =>
    by_cases hv : key v = k
    · have hne : ¬ key v = k' := fun he => h (he.symm.trans hv)
      have hne' : ¬ key (f v) = k' := by rwa [hf]
      simp only [put.modify, if_pos hv, find, if_neg hne, if_neg hne']
    · simp only [put.modify, if_neg hv, find, ih]

theorem find_put_self (hf : ∀ v, key (f v) = key v) (hn : key new = k) :
    find key k (put key k f new vs) = some (((find key k vs).map f).getD new) := by
  unfold put
  cases hany : vs.any fun v => decide (key v = k) with
  | false =>
    have hnone : find key k vs = none := any_eq_false.1 hany
    simp [find, hn, hnone]
  | true =>
    cases hfind : find key k vs with
    | none =>
      rw [any_eq_false.2 hfind] at hany
      cases hany
    | some v => simp [find_modify_self hf, hfind]

theorem find_put_ne (hf : ∀ v, key (f v) = key v) (hn : key new = k) (h : k' ≠ k) :
    find key k' (put key k f new vs) = find key k' vs := by
  unfold put
  split
  · exact find_modify_ne hf h
  · have hne : ¬ key new = k' := fun he => h (he.symm.trans hn)
    simp [find, hne]

theorem Distinct.put (hf : ∀ v, key (f v) = key v) (hn : key new = k) (hd : Distinct key vs) :
    Distinct key (Assoc.put key k f new vs) := by
  unfold Assoc.put
  split
  · unfold Distinct at hd ⊢
    rw [← List.pairwise_map (R := (· ≠ ·))] at hd ⊢
    rwa [map_key_modify hf]
  · next hany =>
    have hnone : find key k vs = none := any_eq_false.1 (by simpa using hany)
    refine List.pairwise_cons.2 ⟨fun v hv he => ?_, hd⟩
    exact find_eq_none.1 hnone v hv (he.symm.trans hn)

/-- Putting a key that is not there yet is a push in front. -/
theorem put_of_find_none (h : find key k vs = none) : put key k f new vs = new :: vs := by
  unfold put
  rw [any_eq_false.2 h]
  rfl

/-- Putting a key that is there, with the entry it changes spelled out. -/
theorem put_append {us : List V} (hno : ∀ u ∈ us, key u ≠ k) (hv : key v = k) :
    put key k f new (us ++ v :: vs) = us ++ f v :: vs := by
  have hmodify : put.modify key f k (us ++ v :: vs) = us ++ f v :: vs := by
    induction us with
    | nil => simp [put.modify, hv]
    | cons u us ih =>
      rw [List.cons_append, put.modify, if_neg (hno u (by simp)), ih fun w hw => hno w (by simp [hw])]
      rfl
  have hany : ((us ++ v :: vs).any fun w => key w = k) = true := by simp [hv]
  rw [put, hany, if_pos rfl, hmodify]

/-! ## Erasing -/

theorem erase_append {us : List V} (hno : ∀ u ∈ us, key u ≠ k) (hv : key v = k) :
    erase key k (us ++ v :: vs) = us ++ vs := by
  induction us with
  | nil => simp [erase, hv]
  | cons u us ih =>
    rw [List.cons_append, erase, if_neg (hno u (by simp)), ih fun w hw => hno w (by simp [hw]), List.cons_append]

theorem erase_sublist : (erase key k vs).Sublist vs := by
  induction vs with
  | nil => exact .slnil
  | cons v vs ih =>
    by_cases hv : key v = k
    · simp [erase, hv]
    · simpa [erase, hv] using ih

theorem Distinct.erase (hd : Distinct key vs) : Distinct key (Assoc.erase key k vs) :=
  hd.sublist erase_sublist

theorem find_erase_self (hd : Distinct key vs) : find key k (erase key k vs) = none := by
  induction vs with
  | nil => rfl
  | cons v vs ih =>
    have hd' := List.pairwise_cons.1 hd
    by_cases hv : key v = k
    · rw [erase, if_pos hv]
      exact find_eq_none.2 fun w hw he => hd'.1 w hw (hv.trans he.symm)
    · simp [erase, find, hv, ih hd'.2]

theorem find_erase_ne (h : k' ≠ k) : find key k' (erase key k vs) = find key k' vs := by
  induction vs with
  | nil => rfl
  | cons v vs ih =>
    by_cases hv : key v = k
    · have hne : ¬ key v = k' := fun he => h (he.symm.trans hv)
      simp only [erase, if_pos hv, find, if_neg hne]
    · simp only [erase, if_neg hv, find, ih]

end Assoc
