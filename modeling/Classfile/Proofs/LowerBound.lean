import Classfile.LowerBound
import Mathlib.Algebra.GroupWithZero.Nat

/-!
Binary search finds the place where the keys stop being below the one that is searched for. The
stretch that is left to search never loses this place, and its length is halved each time.
-/
namespace Classfile

variable {α : Type} {entries : Array (Nat × α)} {xs ys : List (Nat × α)} {key : Nat}

theorem lowerBoundIn_eq (h : entries.toList = xs ++ ys) (hx : ∀ x ∈ xs, x.1 < key)
    (hy : ∀ y ∈ ys, key ≤ y.1) {fuel lo hi : Nat} (hl : lo ≤ xs.length) (hh : xs.length ≤ hi)
    (hs : hi ≤ entries.size) (hf : hi - lo < 2 ^ fuel) :
    lowerBoundIn entries key fuel lo hi = xs.length := by
  induction fuel generalizing lo hi with
  | zero =>
    rw [Nat.pow_zero] at hf
    simp only [lowerBoundIn]
    omega
  | succ fuel ih =>
    rw [Nat.pow_succ] at hf
    rw [lowerBoundIn]
    split
    · rename_i hlt
      have hm : lo + (hi - lo) / 2 < entries.size := by omega
      have he : entries[lo + (hi - lo) / 2]? = (xs ++ ys)[lo + (hi - lo) / 2]? := by
        rw [← h, Array.getElem?_toList]
      by_cases hp : lo + (hi - lo) / 2 < xs.length
      · have hk := hx _ (List.getElem_mem hp)
        rw [List.getElem?_append_left hp, List.getElem?_eq_getElem hp] at he
        simp only [he, hk, if_true]
        exact ih (by omega) hh hs (by omega)
      · have hq : lo + (hi - lo) / 2 - xs.length < ys.length := by
          have := congrArg List.length h
          simp only [Array.length_toList, List.length_append] at this
          omega
        have hk := Nat.not_lt.mpr (hy _ (List.getElem_mem hq))
        rw [List.getElem?_append_right (by omega), List.getElem?_eq_getElem hq] at he
        simp only [he, hk, if_false]
        exact ih hl (by omega) (by omega) (by omega)
    · omega

/-- The keys of `xs` are below the key, and those of `ys` are not. -/
theorem lowerBound_eq (h : entries.toList = xs ++ ys) (hx : ∀ x ∈ xs, x.1 < key)
    (hy : ∀ y ∈ ys, key ≤ y.1) : lowerBound entries key = xs.length := by
  have hl := congrArg List.length h
  simp only [Array.length_toList, List.length_append] at hl
  refine lowerBoundIn_eq h hx hy (Nat.zero_le _) (by omega) (Nat.le_refl _) ?_
  rw [Nat.sub_zero]
  exact Nat.lt_log2_self

theorem exists_split_of_rising {l : List (Nat × α)} (h : l.Pairwise fun x y => x.1 < y.1)
    (key : Nat) : ∃ xs ys, l = xs ++ ys ∧ (∀ x ∈ xs, x.1 < key) ∧ ∀ y ∈ ys, key ≤ y.1 := by
  induction l with
  | nil => exact ⟨[], [], rfl, by simp, by simp⟩
  | cons x l ih =>
    obtain ⟨hx, hl⟩ := List.pairwise_cons.mp h
    by_cases hk : x.1 < key
    · obtain ⟨xs, ys, rfl, hxs, hys⟩ := ih hl
      exact ⟨x :: xs, ys, rfl, List.forall_mem_cons.mpr ⟨hk, hxs⟩, hys⟩
    · refine ⟨[], x :: l, rfl, by simp, List.forall_mem_cons.mpr ⟨Nat.le_of_not_lt hk, ?_⟩⟩
      intro y hy
      have := hx y hy
      omega

/-- With rising keys, the entries whose keys are below come before the place that is found, and no
others do. -/
theorem lt_lowerBound_iff {n start : Nat} {a : α}
    (h : entries.toList.Pairwise fun x y => x.1 < y.1) (hn : entries[n]? = some (start, a)) :
    n < lowerBound entries key ↔ start < key := by
  obtain ⟨xs, ys, hl, hx, hy⟩ := exists_split_of_rising h key
  rw [lowerBound_eq hl hx hy]
  rw [← Array.getElem?_toList, hl] at hn
  constructor
  · intro hlt
    rw [List.getElem?_append_left hlt] at hn
    exact hx _ (List.mem_of_getElem? hn)
  · intro hk
    refine Nat.lt_of_not_le fun hc => ?_
    rw [List.getElem?_append_right hc] at hn
    have := hy _ (List.mem_of_getElem? hn)
    omega

end Classfile
