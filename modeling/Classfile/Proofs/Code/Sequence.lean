import Classfile.Code.Decoding
import Classfile.Proofs.Except
import Mathlib.Data.List.InsertIdx
import Mathlib.Data.List.Nodup

/-!
What every sequence of instructions satisfies that was built by edits: no handle stands for two
instructions, a slot that waits to be used again is not live, and every jump finds its target.
-/
namespace Classfile

namespace Instruction

variable {τ σ : Type} {t : τ} {i j : Instruction τ}

theorem targets_mapTargets (f : τ → σ) : (i.mapTargets f).targets = i.targets.map f := by
  cases i with
  | lookupSwitch default cases => simp [mapTargets, targets]
  | _ => rfl

theorem mem_targets_setTarget? {target : τ} (h : i.setTarget? target = some j)
    (ht : t ∈ j.targets) : t = target ∨ t ∈ i.targets := by
  cases i with
  | branch => cases h; exact Or.inl (List.mem_singleton.mp ht)
  | jump => cases h; exact Or.inl (List.mem_singleton.mp ht)
  | wideJump => cases h; exact Or.inl (List.mem_singleton.mp ht)
  | tableSwitch =>
    cases h
    exact (List.mem_cons.mp ht).imp id (List.mem_cons_of_mem _)
  | lookupSwitch =>
    cases h
    exact (List.mem_cons.mp ht).imp id (List.mem_cons_of_mem _)
  | _ => cases h

end Instruction

namespace InstructionSeq

variable {s : InstructionSeq} {h g : Handle} {i : Instruction Handle} {n : Nat}

/-- The handles of the instructions, in their order. -/
def handles (s : InstructionSeq) : List Handle := s.toList.map (·.1)

structure Linked (s : InstructionSeq) : Prop where
  /-- A handle can name each slot. -/
  capacity : s.slots.size ≤ UInt32.size
  nodup : s.handles.Nodup
  live : ∀ h, s.contains h ↔ h ∈ s.handles
  free_dead : ∀ index ∈ s.free, ∃ generation, s.slots[index.toNat]? = some ⟨generation, false⟩
  free_nodup : s.free.Nodup
  targets : ∀ item ∈ s.toList, ∀ t ∈ item.2.targets, t ∈ s.handles

theorem contains_iff :
    s.contains h = true ↔ s.slots[h.index.toNat]? = some ⟨h.generation, true⟩ := by
  simp [contains]

theorem linked_empty : empty.Linked where
  capacity := Nat.zero_le _
  nodup := List.nodup_nil
  live := by simp [contains, empty, handles, toList]
  free_dead := by simp [empty]
  free_nodup := List.nodup_nil
  targets := by simp [empty, toList]

/-- A slot that is used for the first time gets the next handle, and one that is used again the
handle of its present generation. In both cases the slot was not live. -/
theorem place_contains (hs : s.Linked) (hc : (s.place n i).2.slots.size ≤ UInt32.size) :
    s.contains s.freshHandle = false ∧
      ∀ h, (s.place n i).2.contains h ↔ h = s.freshHandle ∨ s.contains h := by
  obtain ⟨items, slots, free⟩ := s
  cases free with
  | nil =>
    simp only [place, Array.size_push] at hc
    have hi : (UInt32.ofNat slots.size).toNat = slots.size := UInt32.toNat_ofNat_of_lt' hc
    constructor
    · simp [contains, freshHandle, hi]
    · rintro ⟨index, generation⟩
      simp only [contains_iff, place, freshHandle, Array.getElem?_push, Handle.mk.injEq]
      by_cases hx : index.toNat = slots.size
      · have hu : UInt32.ofNat slots.size = index := by
          rw [← UInt32.toNat_inj, hi, hx]
        rw [hu]
        simp [hx, eq_comm]
      · have hu : index ≠ UInt32.ofNat slots.size := by
          rintro rfl
          exact hx hi
        simp [hx, hu]
  | cons index free =>
    obtain ⟨generation, hd⟩ := hs.free_dead index (by simp)
    constructor
    · simp [contains, freshHandle, hd]
    · rintro ⟨index', generation'⟩
      simp only [contains_iff, place, freshHandle, hd, Option.map_some, Option.getD_some,
        Array.getElem?_setIfInBounds, Handle.mk.injEq]
      by_cases hx : index.toNat = index'.toNat
      · have hu : index' = index := UInt32.toNat_inj.mp hx.symm
        subst hu
        have hb : index'.toNat < slots.size := (Array.getElem?_eq_some_iff.mp hd).1
        simp only at hd
        rw [hd]
        simp [hb, eq_comm]
      · have hu : index' ≠ index := by
          rintro rfl
          exact hx rfl
        simp [hx, hu]

theorem place_toList (hn : n ≤ s.size) :
    (s.place n i).2.toList = s.toList.insertIdx n (s.freshHandle, i) := by
  obtain ⟨⟨items⟩, slots, free⟩ := s
  cases free <;> simp [place, toList]

theorem place_handles (hn : n ≤ s.size) :
    (s.place n i).2.handles = s.handles.insertIdx n s.freshHandle := by
  rw [handles, place_toList hn, handles, List.map_insertIdx]

/-- The slots that wait to be used again are dead, and each of them waits once. -/
structure Spare (s : InstructionSeq) : Prop where
  dead : ∀ index ∈ s.free, ∃ generation, s.slots[index.toNat]? = some ⟨generation, false⟩
  nodup : s.free.Nodup

theorem Linked.spare (hs : s.Linked) : s.Spare := ⟨hs.free_dead, hs.free_nodup⟩

theorem spare_place (hs : s.Spare) : (s.place n i).2.Spare := by
  obtain ⟨items, slots, free⟩ := s
  cases free with
  | nil => exact ⟨by simp [place], List.nodup_nil⟩
  | cons index free =>
    obtain ⟨hindex, hfree⟩ := List.nodup_cons.mp hs.nodup
    refine ⟨fun index' hi => ?_, hfree⟩
    obtain ⟨generation, hd⟩ := hs.dead index' (List.mem_cons_of_mem _ hi)
    have hne : index ≠ index' := by
      rintro rfl
      exact hindex hi
    refine ⟨generation, ?_⟩
    rw [place, Array.getElem?_setIfInBounds_ne (fun he => hne (UInt32.toNat_inj.mp he))]
    exact hd

theorem linked_place (hs : s.Linked) (hn : n ≤ s.size) (ht : ∀ t ∈ i.targets, s.contains t)
    (hc : (s.place n i).2.slots.size ≤ UInt32.size) : (s.place n i).2.Linked := by
  obtain ⟨hf, hcon⟩ := place_contains hs hc
  have hl : n ≤ s.handles.length := by simpa [handles, toList, size] using hn
  have hp : (s.place n i).2.handles.Perm (s.freshHandle :: s.handles) := by
    rw [place_handles hn]
    exact List.perm_insertIdx _ _ hl
  have hm : ∀ h, h ∈ (s.place n i).2.handles ↔ h = s.freshHandle ∨ h ∈ s.handles := by
    intro h
    rw [hp.mem_iff, List.mem_cons]
  have hspare := spare_place (n := n) (i := i) hs.spare
  refine ⟨hc, ?_, ?_, hspare.dead, hspare.nodup, ?_⟩
  · refine hp.nodup_iff.mpr (List.nodup_cons.mpr ⟨?_, hs.nodup⟩)
    intro hx
    rw [(hs.live _).mpr hx] at hf
    cases hf
  · intro h
    rw [hcon, hm, hs.live]
  · intro item hi t hx
    rw [hm]
    rw [place_toList hn] at hi
    rcases List.eq_or_mem_of_mem_insertIdx hi with rfl | hi
    · exact Or.inr ((hs.live t).mp (ht t hx))
    · exact Or.inr (hs.targets item hi t hx)

/-- An edit that leaves every instruction its handle. -/
theorem linked_of_handles {t : InstructionSeq} (hs : s.Linked) (hslots : t.slots = s.slots)
    (hfree : t.free = s.free) (hh : t.handles = s.handles)
    (ht : ∀ item ∈ t.toList, ∀ target ∈ item.2.targets, target ∈ s.handles) : t.Linked where
  capacity := hslots ▸ hs.capacity
  nodup := hh ▸ hs.nodup
  live h := by rw [hh, ← hs.live, contains, contains, hslots]
  free_dead := by rw [hfree, hslots]; exact hs.free_dead
  free_nodup := hfree ▸ hs.free_nodup
  targets := hh ▸ ht

theorem position?_eq : s.position? h =
    if s.contains h then s.toList.findIdx? fun item => item.1 = h else none := by
  obtain ⟨⟨items⟩, slots, free⟩ := s
  simp [position?, toList]

theorem split_of_position? (hp : s.position? h = some n) : s.contains h ∧
    ∃ xs i ys, s.toList = xs ++ (h, i) :: ys ∧ xs.length = n ∧ s.items[n]? = some (h, i) := by
  rw [position?_eq] at hp
  split at hp
  · rename_i hc
    refine ⟨hc, ?_⟩
    obtain ⟨hl, he, -⟩ := List.findIdx?_eq_some_iff_getElem.mp hp
    have he' : s.toList[n].1 = h := by simpa using he
    have heq : (h, s.toList[n].2) = s.toList[n] := by rw [← he']
    refine ⟨s.toList.take n, s.toList[n].2, s.toList.drop (n + 1), ?_, ?_, ?_⟩
    · rw [heq, List.getElem_cons_drop, List.take_append_drop]
    · exact List.length_take_of_le (Nat.le_of_lt hl)
    · rw [heq, ← Array.getElem?_toList]
      exact List.getElem?_eq_getElem hl
  · cases hp

theorem mem_of_mem_around {xs ys : List (Handle × Instruction Handle)}
    {item : Handle × Instruction Handle} (hl : s.toList = xs ++ (h, i) :: ys)
    (hi : item ∈ xs ++ ys) : item ∈ s.toList := by
  rw [hl]
  rcases List.mem_append.mp hi with hi | hi
  · exact List.mem_append_left _ hi
  · exact List.mem_append_right _ (List.mem_cons_of_mem _ hi)

/-- The handles around one of them are the other ones. -/
theorem handles_around {xs ys : List (Handle × Instruction Handle)} (hs : s.Linked)
    (hl : s.toList = xs ++ (h, i) :: ys) : ((xs ++ ys).map (·.1)).Nodup ∧
      ∀ g, g ∈ (xs ++ ys).map (·.1) ↔ g ≠ h ∧ g ∈ s.handles := by
  have hperm : s.handles.Perm (h :: (xs ++ ys).map (·.1)) := by
    rw [handles, hl, List.map_append, List.map_cons, List.map_append]
    exact List.perm_middle
  obtain ⟨hh, hnodup⟩ := List.nodup_cons.mp (hperm.nodup_iff.mp hs.nodup)
  refine ⟨hnodup, fun g => ?_⟩
  rw [hperm.mem_iff, List.mem_cons]
  constructor
  · intro hg
    refine ⟨?_, Or.inr hg⟩
    rintro rfl
    exact hh hg
  · rintro ⟨hne, rfl | hg⟩
    · exact absurd rfl hne
    · exact hg

theorem position?_of_split {xs ys : List (Handle × Instruction Handle)} (hs : s.Linked)
    (hl : s.toList = xs ++ (h, i) :: ys) : s.position? h = some xs.length := by
  have hc : s.contains h := (hs.live h).mpr (by simp [handles, hl])
  have hx : xs.findIdx? (fun item => item.1 = h) = none := by
    rw [List.findIdx?_eq_none_iff]
    intro item hi
    have hm : item.1 ∈ (xs ++ ys).map (·.1) := List.mem_map_of_mem (List.mem_append_left ys hi)
    exact decide_eq_false (((handles_around hs hl).2 item.1).mp hm).1
  rw [position?_eq, if_pos hc, hl, List.findIdx?_append, hx]
  simp [List.findIdx?_cons]

theorem position?_of_getElem? (hs : s.Linked) (hk : s.toList[n]? = some (h, i)) :
    s.position? h = some n := by
  obtain ⟨hl, he⟩ := List.getElem?_eq_some_iff.mp hk
  have hsplit : s.toList = s.toList.take n ++ (h, i) :: s.toList.drop (n + 1) := by
    rw [← he, List.getElem_cons_drop, List.take_append_drop]
  rw [position?_of_split hs hsplit, List.length_take_of_le (Nat.le_of_lt hl)]

/-- Both instructions are there, and the first does not come after the last. -/
def Spans (s : InstructionSeq) (first last : Handle) : Prop :=
  ∃ n m, s.position? first = some n ∧ s.position? last = some m ∧ n ≤ m

/-- What can be asked of a sequence that changes it. -/
inductive Edit
  | append (i : Instruction Handle)
  | insertBefore (h : Handle) (i : Instruction Handle)
  | insertAfter (h : Handle) (i : Instruction Handle)
  | remove (h : Handle)
  | replace (h : Handle) (i : Instruction Handle)
  | setTarget (h target : Handle)
  | redirect (old new : Handle)

def edit (s : InstructionSeq) : Edit → Except Fault InstructionSeq
  | .append i => (·.2) <$> s.append i
  | .insertBefore h i => (·.2) <$> s.insertBefore h i
  | .insertAfter h i => (·.2) <$> s.insertAfter h i
  | .remove h => (·.2) <$> s.remove h
  | .replace h i => (·.2) <$> s.replace h i
  | .setTarget h target => (·.2) <$> s.setTarget h target
  | .redirect old new => (·.2) <$> s.redirect old new

theorem position_eq_ok : s.position h = .ok n ↔ s.position? h = some n := by
  unfold position
  cases s.position? h <;> simp

theorem checkTargets_eq_ok : s.checkTargets i = .ok () ↔ ∀ t ∈ i.targets, s.contains t := by
  rw [checkTargets, Except.forM_eq_ok]
  simp [checkLive]

variable {t : InstructionSeq}

theorem edit_append (ht : ∀ t ∈ i.targets, s.contains t) :
    s.edit (.append i) = .ok (s.place s.size i).2 := by
  rw [edit, append, checkTargets_eq_ok.mpr ht]
  rfl

theorem linked_append {r : Handle × InstructionSeq} (hs : s.Linked) (he : s.append i = .ok r)
    (hc : r.2.slots.size ≤ UInt32.size) : r.2.Linked := by
  obtain ⟨⟨⟩, ht, he⟩ := Except.bind_eq_ok.mp he
  cases he
  exact linked_place hs (Nat.le_refl _) (checkTargets_eq_ok.mp ht) hc

theorem linked_insertBefore {r : Handle × InstructionSeq} (hs : s.Linked)
    (he : s.insertBefore h i = .ok r) (hc : r.2.slots.size ≤ UInt32.size) : r.2.Linked := by
  obtain ⟨n, hn, he⟩ := Except.bind_eq_ok.mp he
  obtain ⟨⟨⟩, ht, he⟩ := Except.bind_eq_ok.mp he
  cases he
  obtain ⟨-, xs, j, ys, hl, rfl, -⟩ := split_of_position? (position_eq_ok.mp hn)
  have hx : xs.length ≤ s.toList.length := by simp [hl]
  exact linked_place hs (by simpa [toList, size] using hx) (checkTargets_eq_ok.mp ht) hc

theorem linked_insertAfter {r : Handle × InstructionSeq} (hs : s.Linked)
    (he : s.insertAfter h i = .ok r) (hc : r.2.slots.size ≤ UInt32.size) : r.2.Linked := by
  obtain ⟨n, hn, he⟩ := Except.bind_eq_ok.mp he
  obtain ⟨⟨⟩, ht, he⟩ := Except.bind_eq_ok.mp he
  cases he
  obtain ⟨-, xs, j, ys, hl, rfl, -⟩ := split_of_position? (position_eq_ok.mp hn)
  have hx : xs.length + 1 ≤ s.toList.length := by simp [hl]
  exact linked_place hs (by simpa [toList, size] using hx) (checkTargets_eq_ok.mp ht) hc

/-- A slot that is given up is dead from then on, and the next generation will use it. -/
theorem contains_retired {slots : Array HandleSlot}
    (hslot : slots[h.index.toNat]? = some ⟨h.generation, true⟩) (items free) :
    contains ⟨items, slots.setIfInBounds h.index.toNat ⟨h.generation + 1, false⟩, free⟩ g ↔
      g ≠ h ∧ slots[g.index.toNat]? = some ⟨g.generation, true⟩ := by
  have hb : h.index.toNat < slots.size := (Array.getElem?_eq_some_iff.mp hslot).1
  rw [contains_iff, Array.getElem?_setIfInBounds]
  by_cases hx : h.index.toNat = g.index.toNat
  · rw [← hx, hslot]
    have hi : h.index = g.index := UInt32.toNat_inj.mp hx
    obtain ⟨index, generation⟩ := h
    obtain ⟨index', generation'⟩ := g
    simp only at hi hb
    subst hi
    simp [hb]
    tauto
  · have hne : g ≠ h := by
      rintro rfl
      exact hx rfl
    simp [hx, hne]

theorem spare_retired (hs : s.Spare) (hslot : s.slots[h.index.toNat]? = some ⟨h.generation, true⟩)
    (items : Array (Handle × Instruction Handle)) :
    Spare ⟨items, s.slots.setIfInBounds h.index.toNat ⟨h.generation + 1, false⟩,
      h.index :: s.free⟩ where
  dead := by
    intro index hi
    rcases List.mem_cons.mp hi with rfl | hi
    · have hb := (Array.getElem?_eq_some_iff.mp hslot).1
      exact ⟨h.generation + 1, Array.getElem?_setIfInBounds_self_of_lt hb⟩
    · obtain ⟨generation, hd⟩ := hs.dead index hi
      refine ⟨generation, ?_⟩
      rw [Array.getElem?_setIfInBounds_ne, hd]
      intro hx
      rw [← hx, hslot] at hd
      cases hd
  nodup := by
    refine List.nodup_cons.mpr ⟨fun hi => ?_, hs.nodup⟩
    obtain ⟨generation, hd⟩ := hs.dead h.index hi
    rw [hslot] at hd
    cases hd

/-- An instruction that is no target of the others goes, and its handle dies. -/
theorem linked_erase {xs ys : List (Handle × Instruction Handle)} {j : Instruction Handle}
    (hs : s.Linked) (hl : s.toList = xs ++ (h, j) :: ys)
    (ht : ∀ item ∈ xs ++ ys, h ∉ item.2.targets) :
    Linked ⟨s.items.eraseIdxIfInBounds xs.length,
      s.slots.setIfInBounds h.index.toNat ⟨h.generation + 1, false⟩, h.index :: s.free⟩ := by
  obtain ⟨hnodup, hmem⟩ := handles_around hs hl
  have hslot := contains_iff.mp ((hs.live h).mpr (by simp [handles, hl]))
  have hlist : (s.items.eraseIdxIfInBounds xs.length).toList = xs ++ ys := by
    rw [Array.toList_eraseIdxIfInBounds, show s.items.toList = _ from hl,
      List.eraseIdx_append_of_length_le (Nat.le_refl _), Nat.sub_self, List.eraseIdx_cons_zero]
  have hspare := spare_retired hs.spare hslot s.items
  refine ⟨?_, ?_, ?_, hspare.dead, hspare.nodup, ?_⟩
  · rw [Array.size_setIfInBounds]
    exact hs.capacity
  · rwa [handles, toList, hlist]
  · intro g
    rw [contains_retired hslot, handles, toList, hlist, hmem, ← hs.live, contains_iff]
  · intro item hi t hx
    rw [toList, hlist] at hi
    rw [handles, toList, hlist, hmem]
    refine ⟨?_, hs.targets item (mem_of_mem_around hl hi) t hx⟩
    rintro rfl
    exact ht item hi hx

theorem linked_remove {r : Instruction Handle × InstructionSeq} (hs : s.Linked)
    (he : s.remove h = .ok r) : r.2.Linked := by
  obtain ⟨n, hn, he⟩ := Except.bind_eq_ok.mp he
  obtain ⟨-, xs, j, ys, hl, rfl, hj⟩ := split_of_position? (position_eq_ok.mp hn)
  cases ho : ((s.targeters h).filter (· ≠ h)).isEmpty with
  | false =>
    simp only [ho] at he
    cases he
  | true =>
    simp only [ho, if_true, hj] at he
    cases he
    refine linked_erase hs hl fun item hi ht => ?_
    -- An instruction with the removed one for a target would be among its targeters.
    have hne : item.1 ≠ h := (((handles_around hs hl).2 item.1).mp (List.mem_map_of_mem hi)).1
    have hit : item ∈ s.toList := mem_of_mem_around hl hi
    have hin : item.1 ∈ (s.targeters h).filter (· ≠ h) := by
      rw [List.mem_filter]
      refine ⟨List.mem_map_of_mem (List.mem_filter.mpr ⟨hit, ?_⟩), by simp [hne]⟩
      simpa using ht
    rw [List.isEmpty_iff.mp ho] at hin
    cases hin

/-- Another instruction takes the place of the one that has the handle. -/
theorem linked_set {xs ys : List (Handle × Instruction Handle)} {j : Instruction Handle}
    (hs : s.Linked) (hl : s.toList = xs ++ (h, j) :: ys)
    (ht : ∀ t ∈ i.targets, t ∈ s.handles) :
    Linked { s with items := s.items.setIfInBounds xs.length (h, i) } := by
  have hlist : (s.items.setIfInBounds xs.length (h, i)).toList = xs ++ (h, i) :: ys := by
    rw [Array.toList_setIfInBounds]
    simp [show s.items.toList = _ from hl]
  refine linked_of_handles hs rfl rfl ?_ ?_
  · rw [handles, toList, hlist, handles, hl, List.map_append, List.map_append]
    rfl
  · intro item hi
    rw [toList, hlist, List.mem_append, List.mem_cons] at hi
    rcases hi with hi | rfl | hi
    · exact hs.targets item (by simp [hl, hi])
    · exact ht
    · exact hs.targets item (by simp [hl, hi])

theorem linked_replace {r : Instruction Handle × InstructionSeq} (hs : s.Linked)
    (he : s.replace h i = .ok r) : r.2.Linked := by
  obtain ⟨n, hn, he⟩ := Except.bind_eq_ok.mp he
  obtain ⟨⟨⟩, ht, he⟩ := Except.bind_eq_ok.mp he
  obtain ⟨-, xs, j, ys, hl, rfl, hj⟩ := split_of_position? (position_eq_ok.mp hn)
  simp only [hj] at he
  cases he
  exact linked_set hs hl fun t h' => (hs.live t).mp (checkTargets_eq_ok.mp ht t h')

theorem linked_setTarget {target : Handle} {r : Bool × InstructionSeq} (hs : s.Linked)
    (he : s.setTarget h target = .ok r) : r.2.Linked := by
  obtain ⟨n, hn, he⟩ := Except.bind_eq_ok.mp he
  obtain ⟨⟨⟩, ht, he⟩ := Except.bind_eq_ok.mp he
  obtain ⟨-, xs, j, ys, hl, rfl, hj⟩ := split_of_position? (position_eq_ok.mp hn)
  simp only [hj, Option.bind_some] at he
  cases hset : j.setTarget? target with
  | none =>
    simp only [hset] at he
    cases he
    exact hs
  | some k =>
    simp only [hset] at he
    cases he
    refine linked_set hs hl ?_
    intro t hk
    rcases Instruction.mem_targets_setTarget? hset hk with rfl | hk
    · by_cases hc : s.contains t
      · exact (hs.live t).mp hc
      · simp [checkLive, hc] at ht
    · exact hs.targets (h, j) (by simp [hl]) t hk

theorem linked_redirect {old new : Handle} {r : Nat × InstructionSeq} (hs : s.Linked)
    (he : s.redirect old new = .ok r) : r.2.Linked := by
  obtain ⟨⟨⟩, ht, he⟩ := Except.bind_eq_ok.mp he
  cases he
  refine linked_of_handles hs rfl rfl ?_ ?_
  · simp [handles, toList]
  · intro item hi t hx
    simp only [toList, Array.toList_map, List.mem_map] at hi
    obtain ⟨⟨g, j⟩, hm, rfl⟩ := hi
    rw [Instruction.targets_mapTargets, List.mem_map] at hx
    obtain ⟨u, hu, rfl⟩ := hx
    split
    · by_cases hc : s.contains new
      · exact (hs.live new).mp hc
      · simp [checkLive, hc] at ht
    · exact hs.targets (g, j) hm u hu

theorem linked_edit {e : Edit} (hs : s.Linked) (he : s.edit e = .ok t)
    (hc : t.slots.size ≤ UInt32.size) : t.Linked := by
  cases e with
  | append i =>
    obtain ⟨r, hr, rfl⟩ := Except.map_eq_ok.mp he
    exact linked_append hs hr hc
  | insertBefore h i =>
    obtain ⟨r, hr, rfl⟩ := Except.map_eq_ok.mp he
    exact linked_insertBefore hs hr hc
  | insertAfter h i =>
    obtain ⟨r, hr, rfl⟩ := Except.map_eq_ok.mp he
    exact linked_insertAfter hs hr hc
  | remove h =>
    obtain ⟨r, hr, rfl⟩ := Except.map_eq_ok.mp he
    exact linked_remove hs hr
  | replace h i =>
    obtain ⟨r, hr, rfl⟩ := Except.map_eq_ok.mp he
    exact linked_replace hs hr
  | setTarget h target =>
    obtain ⟨r, hr, rfl⟩ := Except.map_eq_ok.mp he
    exact linked_setTarget hs hr
  | redirect old new =>
    obtain ⟨r, hr, rfl⟩ := Except.map_eq_ok.mp he
    exact linked_redirect hs hr

end InstructionSeq

end Classfile
