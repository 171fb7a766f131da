import Classfile.Proofs.Code.Edits

/-!
The order of instructions while they are edited. An edit that takes nothing out leaves the old
instructions in their order, and one that takes an instruction out leaves the others in theirs. The
neighbours of an instruction that goes are on either side of it.
-/
namespace Classfile

section

variable {α : Type} {a b : α} {xs ys : List α}

/-- From `a` on, `b` is found in the list. -/
def InOrder (xs : List α) (a b : α) : Prop :=
  ∃ before after, xs = before ++ a :: after ∧ b ∈ a :: after

namespace InOrder

theorem sublist (h : InOrder xs a b) (hsub : xs.Sublist ys) : InOrder ys a b := by
  obtain ⟨before, after, rfl, hb⟩ := h
  obtain ⟨front, back, rfl, -, hback⟩ := List.append_sublist_iff.mp hsub
  obtain ⟨left, right, rfl, ha, hright⟩ := List.cons_sublist_iff.mp hback
  obtain ⟨p, q, rfl⟩ := List.append_of_mem ha
  refine ⟨front ++ p, q ++ right, by simp, ?_⟩
  rcases List.mem_cons.mp hb with rfl | hb
  · exact List.mem_cons_self
  · exact List.mem_cons_of_mem _ (List.mem_append_right _ (hright.subset hb))

/-- Without repetitions, a list can be split at an element in one way. -/
theorem split_unique {before after : List α} (hn : (xs ++ a :: ys).Nodup)
    (he : xs ++ a :: ys = before ++ a :: after) : xs = before ∧ ys = after := by
  obtain ⟨ha, -⟩ := List.nodup_cons.mp (List.nodup_middle.mp hn)
  rw [List.mem_append, not_or] at ha
  obtain ⟨hx, -, hy⟩ := (List.append_cons_inj_of_notMem ha.1 ha.2).mp he
  exact ⟨hx, hy⟩

end InOrder

/-- A part of a list, from one element to another. -/
structure Stretch (xs m : List α) (first last : α) : Prop where
  between : m <:+: xs
  head : m.head? = some first
  last : m.getLast? = some last

theorem InOrder.exists_stretch (h : InOrder xs a b) : ∃ m, Stretch xs m a b := by
  obtain ⟨before, after, rfl, hb⟩ := h
  obtain ⟨p, q, hsplit⟩ := List.append_of_mem hb
  refine ⟨p ++ [b], ⟨before, q, by rw [hsplit]; simp⟩, ?_, List.getLast?_concat⟩
  cases p with
  | nil => exact congrArg List.head? hsplit.symm
  | cons x p =>
    cases hsplit
    rfl

theorem Stretch.inOrder {m : List α} (h : Stretch xs m a b) : InOrder xs a b := by
  obtain ⟨⟨before, after, rfl⟩, hhead, hlast⟩ := h
  obtain ⟨rest, rfl⟩ := List.head?_eq_some_iff.mp hhead
  exact ⟨before, rest ++ after, by simp, List.mem_append_left after (List.mem_of_getLast? hlast)⟩

variable [DecidableEq α]

theorem filter_ne_middle (hn : (xs ++ a :: ys).Nodup) :
    (xs ++ a :: ys).filter (· ≠ a) = xs ++ ys := by
  obtain ⟨ha, -⟩ := List.nodup_cons.mp (List.nodup_middle.mp hn)
  rw [List.filter_append, List.filter_cons_of_neg (by simp), ← List.filter_append]
  exact List.filter_eq_self.mpr fun x hx => decide_eq_true fun he => ha (he ▸ hx)

/-- When an element of a part goes, the part begins with the next one, if it began with this one. -/
theorem head?_without (back : List α) (ha : a ∉ xs) (hne : xs ≠ [] ∨ ys ≠ [])
    (hf : (xs ++ a :: ys).head? = some b) : (b = a → xs = []) ∧
      (xs ++ ys).head? = some (if b = a then (ys ++ back).head?.getD b else b) := by
  cases xs with
  | nil =>
    cases hf
    obtain ⟨next, ys, rfl⟩ := List.exists_cons_of_ne_nil (hne.resolve_left (· rfl))
    simp
  | cons x xs =>
    cases hf
    have hb : b ≠ a := fun he => ha (he ▸ List.mem_cons_self)
    simp [hb]

end

namespace InstructionSeq

variable {s t : InstructionSeq} {a b h : Handle} {i : Instruction Handle}
  {xs ys : List (Handle × Instruction Handle)}

theorem spans_iff (hs : s.Linked) : s.Spans a b ↔ InOrder s.handles a b := by
  constructor
  · rintro ⟨n, m, hn, hm, hle⟩
    obtain ⟨-, xs, i, ys, hl, rfl, -⟩ := split_of_position? hn
    obtain ⟨-, -, j, -, -, -, hj⟩ := split_of_position? hm
    refine ⟨xs.map (·.1), ys.map (·.1), by simp [handles, hl], ?_⟩
    have hj : ((a, i) :: ys)[m - xs.length]? = some (b, j) := by
      rw [← Array.getElem?_toList, show s.items.toList = _ from hl,
        List.getElem?_append_right hle] at hj
      exact hj
    exact List.mem_map_of_mem (f := (·.1)) (List.mem_of_getElem? hj)
  · rintro ⟨before, after, hsplit, hb⟩
    obtain ⟨xs, rest, hl, rfl, hrest⟩ := List.map_eq_append_iff.mp hsplit
    obtain ⟨⟨a, i⟩, ys, rfl, rfl, rfl⟩ := List.map_eq_cons_iff.mp hrest
    rw [← List.map_cons] at hb
    obtain ⟨⟨b, j⟩, hm, rfl⟩ := List.mem_map.mp hb
    obtain ⟨zs, ws, hz⟩ := List.append_of_mem hm
    have hlast : s.toList = (xs ++ zs) ++ (b, j) :: ws := by rw [hl, hz, List.append_assoc]
    exact ⟨_, _, position?_of_split hs hl, position?_of_split hs hlast, by simp⟩

theorem Spans.contains_left (h : s.Spans a b) : s.contains a := by
  obtain ⟨n, m, hn, -, -⟩ := h
  exact (split_of_position? hn).1

theorem Spans.contains_right (h : s.Spans a b) : s.contains b := by
  obtain ⟨n, m, -, hm, -⟩ := h
  exact (split_of_position? hm).1

/-! ### Nothing is taken out -/

theorem Step.handles_sublist (h : s.Step 0 t) : s.handles.Sublist t.handles := by
  cases h with
  | same => exact .refl _
  | place hn ht =>
    rw [place_handles hn]
    exact List.sublist_insertIdx ..
  | @set _ _ _ _ j hl =>
    rw [handles, handles, set_between (j := j) hl, hl, List.map_append, List.map_append]
    exact .refl _
  | redirect hc =>
    rw [handles, handles, toList, toList, Array.toList_map, List.map_map]
    exact .refl _

theorem Step.spans (hs : s.Linked) (ht : t.Linked) (h : s.Step 0 t) (hab : s.Spans a b) :
    t.Spans a b := by
  rw [spans_iff hs] at hab
  exact (spans_iff ht).mpr (hab.sublist h.handles_sublist)

theorem Step.contains (hs : s.Linked) (ht : t.Linked) (h : s.Step 0 t) (ha : s.contains a) :
    t.contains a := by
  rw [hs.live] at ha
  exact (ht.live a).mpr (h.handles_sublist.subset ha)

/-! ### An instruction goes -/

theorem get?_of_split (hs : s.Linked) (hl : s.toList = xs ++ (h, i) :: ys) : s.get? h = some i := by
  have hi : s.items[xs.length]? = some (h, i) := by
    rw [← Array.getElem?_toList, show s.items.toList = _ from hl]
    simp
  simp [get?, position?_of_split hs hl, hi]

theorem handleAt?_eq {n : Nat} : s.handleAt? n = s.toList[n]?.map (·.1) := by
  rw [handleAt?, ← Array.getElem?_toList]
  rfl

theorem next?_of_split (hs : s.Linked) (hl : s.toList = xs ++ (h, i) :: ys) :
    s.next? h = ys.head?.map (·.1) := by
  rw [next?, position?_of_split hs hl]
  change s.handleAt? (xs.length + 1) = _
  rw [handleAt?_eq, hl, List.append_cons, List.getElem?_append_right (by simp)]
  simp [List.head?_eq_getElem?]

theorem prev?_of_split (hs : s.Linked) (hl : s.toList = xs ++ (h, i) :: ys) :
    s.prev? h = xs.getLast?.map (·.1) := by
  rw [prev?, position?_of_split hs hl]
  rcases List.eq_nil_or_concat xs with rfl | ⟨front, x, rfl⟩
  · rfl
  · rw [List.concat_eq_append] at hl ⊢
    rw [List.length_append]
    change s.handleAt? front.length = _
    rw [handleAt?_eq, hl]
    simp

/-- The instruction that goes, and its neighbours. -/
theorem handles_of_remove (hs : s.Linked) (hr : s.remove h = .ok (i, t)) :
    ∃ before after, s.handles = before ++ h :: after ∧ t.handles = before ++ after ∧
      s.prev? h = before.getLast? ∧ s.next? h = after.head? := by
  obtain ⟨-, xs, j, ys, hl, -, he⟩ := remove_eq_ok hr
  cases he
  refine ⟨xs.map (·.1), ys.map (·.1), by simp [handles, hl], ?_, ?_, ?_⟩
  · rw [handles, erase_between hl, List.map_append]
  · rw [prev?_of_split hs hl, List.getLast?_map]
  · rw [next?_of_split hs hl, List.head?_map]

end InstructionSeq

end Classfile
