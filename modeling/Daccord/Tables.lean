import Mathlib.Data.List.Basic
import Mathlib.Tactic

/-! Database tables as ordered maps from a numeric key to a row, and lists kept in
them under the keys `0, 1, 2, …`. -/
namespace Daccord
namespace Tables

variable {α : Type*} {t : Std.TreeMap ℕ α} {l : List α}

/-- The table holds the list: the `i`th element under key `i`, and nothing else. -/
def Rows (t : Std.TreeMap ℕ α) (l : List α) : Prop := ∀ i : ℕ, t[i]? = l[i]?

theorem Rows.empty : Rows (∅ : Std.TreeMap ℕ α) [] := by
  intro i
  simp

theorem Rows.mem (h : Rows t l) (i : ℕ) : i ∈ t ↔ i < l.length := by
  rw [Std.TreeMap.mem_iff_isSome_getElem?,h i]
  simp

theorem Rows.insert (h : Rows t l) (a : α) : Rows (t.insert l.length a) (l ++ [a]) := by
  intro i
  rw [Std.TreeMap.getElem?_insert,h i]
  by_cases hi : l.length = i
  · simp [← hi]
  · rcases lt_or_gt_of_ne hi with hlt | hgt
    · have hnone : l[i]? = none := List.getElem?_eq_none hlt.le
      have hnone' : (l ++ [a])[i]? = none := List.getElem?_eq_none (by simp; omega)
      simp [hi,hnone,hnone']
    · simp [hi,List.getElem?_append_left hgt]

theorem Rows.filter_lt (h : Rows t l) (n : ℕ) :
    Rows (t.filter fun i _ => decide (i < n)) (l.take n) := by
  intro i
  rw [Std.TreeMap.getElem?_filter',h i,List.getElem?_take]
  by_cases hi : i < n <;> cases l[i]? <;> simp [hi]

/-- The key after the largest one. -/
def nextKey (t : Std.TreeMap ℕ α) : ℕ :=
  match t.maxKey? with
  | some k => k + 1
  | none => 0

theorem Rows.nextKey_eq (h : Rows t l) : nextKey t = l.length := by
  unfold nextKey
  cases hmax : t.maxKey? with
  | none =>
    rw [Std.TreeMap.maxKey?_eq_none_iff,Std.TreeMap.isEmpty_iff_forall_not_mem] at hmax
    simp only
    by_contra hne
    exact hmax 0 ((h.mem 0).mpr (by omega))
  | some k =>
    obtain ⟨hk,hle⟩ := Std.TreeMap.maxKey?_eq_some_iff_mem_and_forall.mp hmax
    have hlt := (h.mem k).mp hk
    have hlast := hle (l.length - 1) ((h.mem _).mpr (by omega))
    rw [Nat.isLE_compare] at hlast
    simp only
    omega

/-- Insert rows under consecutive keys. -/
def insertAll (t : Std.TreeMap ℕ α) (next : ℕ) (rows : List α) : Std.TreeMap ℕ α :=
  (rows.zipIdx next).foldl (fun t r => t.insert r.2 r.1) t

theorem Rows.insertAll (h : Rows t l) (rows : List α) :
    Rows (insertAll t l.length rows) (l ++ rows) := by
  induction rows generalizing t l with
  | nil => simpa [Tables.insertAll] using h
  | cons a rows ih =>
    have := ih (h.insert a)
    rw [List.append_assoc,List.length_append] at this
    exact this

theorem Rows.toList_eq (h : Rows t l) : t.toList = l.zipIdx.map Prod.swap := by
  have hnodup : ∀ {rows : List (ℕ × α)}, rows.Pairwise (fun a b => a.1 < b.1) → rows.Nodup :=
    fun hrows => hrows.imp fun hab heq => hab.ne (congrArg Prod.fst heq)
  have hsorted : t.toList.Pairwise fun a b => a.1 < b.1 :=
    Std.TreeMap.ordered_keys_toList.imp fun hab => Nat.compare_eq_lt.mp hab
  have hsorted' : (l.zipIdx.map Prod.swap).Pairwise fun a b => a.1 < b.1 := by
    rw [List.pairwise_iff_getElem]
    intro i j _ _ hij
    simpa using hij
  refine List.Perm.eq_of_pairwise (fun a b _ _ hab hba => absurd hab hba.asymm) hsorted hsorted' ?_
  rw [List.perm_ext_iff_of_nodup (hnodup hsorted) (hnodup hsorted')]
  rintro ⟨k,a⟩
  rw [Std.TreeMap.mem_toList_iff_getElem?_eq_some,h k]
  simp [List.mem_zipIdx_iff_getElem?]

theorem Rows.values_eq (h : Rows t l) : t.toList.map Prod.snd = l := by
  rw [h.toList_eq,List.map_map]
  exact List.zipIdx_map_fst 0 l

theorem Rows.keys_eq (h : Rows t l) : t.keys = List.range l.length := by
  rw [← Std.TreeMap.map_fst_toList_eq_keys,h.toList_eq,List.map_map]
  have := List.zipIdx_map_snd 0 l
  rw [List.range_eq_range']
  exact this

end Tables
end Daccord
