import Classfile.Proofs.LowerBound
import Classfile.WidthTable

/-!
The offsets of elements that are put one behind the other, and how an element is found at its
offset.
-/
namespace Classfile

variable {α : Type} [Width α]

namespace Overflow

variable {overflow : Overflow} {m n : Nat}

theorem add_of_room (h : m + n < wordLimit) : overflow.add m n = some (m + n) := if_pos h

theorem stops_add (h : wordLimit ≤ m + n) : stops.add m n = none := if_neg (Nat.not_lt.mpr h)

end Overflow

/-- How much room some elements take up. -/
def Width.total (elements : List α) : Nat := (elements.map Width.width).sum

/-- Elements with their offsets, the first of which is given. -/
def Width.placed : Nat → List α → List (Nat × α)
  | _, [] => []
  | offset, a :: elements => (offset, a) :: placed (offset + Width.width a) elements

namespace Width

variable {offset : Nat} {a : α} {elements xs ys : List α} {entry : Nat × α}

@[simp] theorem total_nil : total ([] : List α) = 0 := rfl

@[simp] theorem total_cons : total (a :: elements) = width a + total elements := by
  simp [total]

@[simp] theorem total_append : total (xs ++ ys) = total xs + total ys := by
  simp [total]

theorem total_eq_mul {size : Nat} (h : ∀ x ∈ elements, width x = size) :
    total elements = elements.length * size := by
  have hm : elements.map width = List.replicate elements.length size := by
    rw [List.map_eq_replicate_iff]
    exact h
  rw [total, hm, List.sum_replicate_nat]

theorem placed_append :
    placed offset (xs ++ ys) = placed offset xs ++ placed (offset + total xs) ys := by
  induction xs generalizing offset with
  | nil => simp [placed]
  | cons a xs ih => simp [placed, ih, Nat.add_assoc]

@[simp] theorem placed_map_snd : (placed offset elements).map (·.2) = elements := by
  induction elements generalizing offset with
  | nil => rfl
  | cons a elements ih => simp [placed, ih]

@[simp] theorem placed_length : (placed offset elements).length = elements.length := by
  rw [← List.length_map (·.2), placed_map_snd]

theorem mem_placed : entry ∈ placed offset elements ↔
    ∃ xs ys, elements = xs ++ entry.2 :: ys ∧ entry.1 = offset + total xs := by
  constructor
  · intro h
    induction elements generalizing offset with
    | nil => cases h
    | cons a elements ih =>
      rcases List.mem_cons.mp h with rfl | h
      · exact ⟨[], elements, rfl, rfl⟩
      · obtain ⟨xs, ys, rfl, ho⟩ := ih h
        refine ⟨a :: xs, ys, rfl, ?_⟩
        rw [ho, total_cons, Nat.add_assoc]
  · rintro ⟨xs, ys, rfl, ho⟩
    rw [placed_append, ← ho]
    simp [placed]

/-- An element is where those before it end. -/
theorem offset_of_placed {before after : List (Nat × α)}
    (h : placed offset elements = before ++ entry :: after) :
    entry.1 = offset + total (before.map (·.2)) := by
  induction before generalizing offset elements with
  | nil =>
    cases elements with
    | nil => cases h
    | cons a elements =>
      cases h
      rfl
  | cons first before ih =>
    cases elements with
    | nil => cases h
    | cons a elements =>
      rw [placed, List.cons_append, List.cons.injEq] at h
      obtain ⟨rfl, h⟩ := h
      rw [ih h, List.map_cons, total_cons, Nat.add_assoc]

theorem placed_bounds (h : entry ∈ placed offset elements) :
    offset ≤ entry.1 ∧ entry.1 + width entry.2 ≤ offset + total elements := by
  obtain ⟨xs, ys, rfl, ho⟩ := mem_placed.mp h
  simp only [total_append, total_cons]
  omega

theorem lt_of_mem_placed (hw : ∀ x ∈ elements, 0 < width x)
    (h : entry ∈ placed offset elements) : entry.1 < offset + total elements := by
  obtain ⟨xs, ys, rfl, -⟩ := mem_placed.mp h
  have hb := placed_bounds h
  have hp := hw entry.2 (by simp)
  omega

theorem length_le_total (hw : ∀ x ∈ elements, 0 < width x) : elements.length ≤ total elements := by
  induction elements with
  | nil => exact Nat.le_refl 0
  | cons a elements ih =>
    have ha := hw a List.mem_cons_self
    have hi := ih fun x hx => hw x (List.mem_cons_of_mem _ hx)
    rw [List.length_cons, total_cons]
    omega

/-- Every offset up to the end lies in some element. -/
theorem exists_around {key : Nat} (hlo : offset ≤ key) (hhi : key < offset + total elements) :
    ∃ xs a ys, elements = xs ++ a :: ys ∧ offset + total xs ≤ key ∧
      key < offset + total xs + width a := by
  induction elements generalizing offset with
  | nil =>
    rw [total_nil] at hhi
    omega
  | cons a elements ih =>
    by_cases hk : key < offset + width a
    · exact ⟨[], a, elements, rfl, hlo, hk⟩
    · rw [total_cons] at hhi
      have hlo : offset + width a ≤ key := Nat.le_of_not_lt hk
      obtain ⟨xs, b, ys, rfl, hb, he⟩ := ih hlo (by omega)
      refine ⟨a :: xs, b, ys, rfl, ?_, ?_⟩ <;> rw [total_cons] <;> omega

end Width

namespace WidthTable

open Width

variable {offset key : Nat} {a : α} {elements xs ys : List α} {table : WidthTable α}

theorem foldl_push : elements.foldl push table =
    ⟨table.entries ++ (placed table.extent elements).toArray, table.extent + total elements⟩ := by
  induction elements generalizing table with
  | nil => simp [placed]
  | cons a elements ih =>
    rw [List.foldl_cons, ih]
    simp [push, placed, Nat.add_assoc]

theorem ofList_eq :
    ofList offset elements = ⟨(placed offset elements).toArray, offset + total elements⟩ := by
  rw [ofList, foldl_push]
  simp [startingAt]

@[simp] theorem ofList_toList : (ofList offset elements).toList = placed offset elements := by
  rw [ofList_eq, toList]

@[simp] theorem ofList_extent : (ofList offset elements).extent = offset + total elements := by
  rw [ofList_eq]

/-- Where there is room, an element is put at the end as if there were no largest word. -/
theorem place_of_room {overflow : Overflow} (h : table.extent + width a < wordLimit) :
    place overflow a table = some (table.extent, table.push a) := by
  rw [place, Overflow.add_of_room h]
  rfl

theorem push_ofList : (ofList offset elements).push a = ofList offset (elements ++ [a]) := by
  simp [ofList]

/-- The search ends behind the elements that start before the key. -/
theorem lowerBound_placed (hx : ∀ entry ∈ placed offset xs, entry.1 < key)
    (hy : ys ≠ [] → key ≤ offset + total xs) :
    lowerBound (placed offset (xs ++ ys)).toArray key = xs.length := by
  rw [lowerBound_eq placed_append hx, placed_length]
  intro entry he
  have hne : ys ≠ [] := by
    rintro rfl
    cases he
  exact Nat.le_trans (hy hne) (placed_bounds he).1

theorem locate_next (hx : ∀ entry ∈ placed offset xs, entry.1 < key)
    (hk : key ≤ offset + total xs) : (ofList offset (xs ++ a :: ys)).locate key =
      if offset + total xs = key then .start xs.length a else .inside xs.length := by
  have hl : lowerBound (placed offset (xs ++ a :: ys)).toArray key = xs.length :=
    lowerBound_placed hx fun _ => hk
  have he : (placed offset (xs ++ a :: ys))[xs.length]? = some (offset + total xs, a) := by
    rw [placed_append, List.getElem?_append_right (by simp)]
    simp [placed]
  rw [ofList_eq, locate]
  simp only [hl, List.getElem?_toArray, he]

theorem locate_start (hx : ∀ x ∈ xs, 0 < width x) :
    (ofList offset (xs ++ a :: ys)).locate (offset + total xs) = .start xs.length a := by
  rw [locate_next (fun _ he => lt_of_mem_placed hx he) (Nat.le_refl _), if_pos rfl]

/-- The key is before an element, and behind the start of all elements before that one. -/
theorem locate_inside (hx : ∀ entry ∈ placed offset xs, entry.1 < key)
    (hk : key < offset + total xs) :
    (ofList offset (xs ++ a :: ys)).locate key = .inside xs.length := by
  rw [locate_next hx (Nat.le_of_lt hk), if_neg (Nat.ne_of_gt hk)]

theorem locate_beyond (hx : ∀ entry ∈ placed offset xs, entry.1 < key) :
    (ofList offset xs).locate key = .beyond := by
  have hl : lowerBound (placed offset (xs ++ [])).toArray key = xs.length :=
    lowerBound_placed hx fun h => absurd rfl h
  rw [List.append_nil] at hl
  have he : (placed offset xs)[xs.length]? = none := by simp
  rw [ofList_eq, locate]
  simp only [hl, List.getElem?_toArray, he]

/-- An element is found at its offset, and nothing is found anywhere else. -/
theorem find?_eq_some (hw : ∀ x ∈ elements, 0 < width x) :
    (ofList offset elements).find? key = some a ↔ (key, a) ∈ placed offset elements := by
  constructor
  · intro h
    rw [find?, locate, ofList_eq] at h
    split at h <;> rename_i hs
    · split at hs <;> rename_i hg
      · split at hs <;> rename_i hk
        · cases hs
          cases h
          subst hk
          exact List.mem_of_getElem? (by simpa using hg)
        · cases hs
      · cases hs
    · cases h
  · intro h
    obtain ⟨xs, ys, rfl, rfl⟩ := mem_placed.mp h
    rw [find?, locate_start fun x hx => hw x (by simp [hx])]

end WidthTable

end Classfile
