import Mathlib.Data.List.Perm.Subperm
import Classfile.Proofs.Arena.Chain

/-!
The arena and the sequence that it stands for. What a slot holds is the instruction of its handle,
and slots are linked in the order of the sequence. Whatever is asked of the arena has the answer
that the sequence gives.
-/
namespace Classfile.Arena

open InstructionSeq

variable {a b : Arena} {s : InstructionSeq} {h g : Handle} {i : Instruction Handle}
  {xs ys : List Handle}

/-- The arena stands for the sequence. -/
structure Represents (a : Arena) (s : InstructionSeq) : Prop where
  chained : a.Chained s.handles
  instructions : ∀ item ∈ s.toList, a.instructionAt? item.1.index = some item.2
  slots : s.slots = a.slots.map ArenaSlot.shape
  free : a.free = s.free
  size : a.size = s.size

theorem represents_empty : empty.Represents .empty where
  chained := ⟨rfl, rfl, by simp [handles, toList, InstructionSeq.empty]⟩
  instructions := by simp [toList, InstructionSeq.empty]
  slots := by simp [empty, InstructionSeq.empty]
  free := rfl
  size := rfl

theorem contains_of_position? (hs : s.Linked) (hp : s.position? h = none) :
    s.contains h = false := by
  by_contra hc
  obtain ⟨⟨g, i⟩, hm, rfl⟩ := List.mem_map.mp ((hs.live h).mp (by simpa using hc))
  obtain ⟨xs, ys, hl⟩ := List.append_of_mem hm
  rw [position?_of_split hs hl] at hp
  cases hp

theorem index_inj (hh : s.contains h) (hg : s.contains g) (he : h.index = g.index) : h = g := by
  rw [contains_iff] at hh hg
  rw [he, hg] at hh
  cases h
  cases g
  simp_all

theorem index_nodup (hs : s.Linked) : (s.handles.map (·.index)).Nodup := by
  refine List.Nodup.map_on (fun h hh g hg he => ?_) hs.nodup
  exact index_inj ((hs.live h).mpr hh) ((hs.live g).mpr hg) he

/-- A walk along a list, if each place of it leads on to the next. -/
theorem walk_eq {ι κ ν : Type} {visit : κ → Option (Option (ν × Option κ))} {steps : List ι}
    {places : Nat} (place : ι → κ) (seen : ι → ν) (hn : steps.length ≤ places)
    (hv : ∀ before x after, steps = before ++ x :: after →
      visit (place x) = some (some (seen x, after.head?.map place))) :
    walk visit places (steps.head?.map place) = some (steps.map seen) := by
  induction steps generalizing places with
  | nil => cases places <;> rfl
  | cons x steps ih =>
    cases places with
    | zero => simp at hn
    | succ places =>
      have hi := ih (Nat.le_of_succ_le_succ hn) fun before y after he =>
        hv (x :: before) y after (by rw [he, List.cons_append])
      simp [walk, hv [] x steps rfl, hi]

namespace Represents

variable {items more : List (Handle × Instruction Handle)}

theorem slot (hr : a.Represents s) (k : Nat) :
    s.slots[k]? = a.slots[k]?.map ArenaSlot.shape := by
  rw [hr.slots, Array.getElem?_map]

theorem contains_eq (hr : a.Represents s) : a.contains h = s.contains h := by
  rw [Bool.eq_iff_iff, contains_iff, hr.slot, Arena.contains, node?]
  cases hslot : a.slots[h.index.toNat]? with
  | none => simp
  | some slot =>
    by_cases hg : slot.generation = h.generation
    · simp [hg, ArenaSlot.shape]
    · simp [hg, ArenaSlot.shape]

theorem node?_eq (hr : a.Represents s) (hc : s.contains h) : a.node? h = a.nodeAt? h.index := by
  rw [contains_iff, hr.slot] at hc
  obtain ⟨slot, hslot, he⟩ := Option.map_eq_some_iff.mp hc
  have hg : slot.generation = h.generation := congrArg HandleSlot.generation he
  simp [node?, nodeAt?, hslot, hg]

theorem node?_eq_none (hr : a.Represents s) (hc : s.contains h = false) : a.node? h = none := by
  rw [← hr.contains_eq] at hc
  simpa [Arena.contains] using hc

theorem handleOf? (hr : a.Represents s) (hc : s.contains h) : a.handleOf? h.index = some h := by
  rw [contains_iff, hr.slot] at hc
  obtain ⟨slot, hslot, he⟩ := Option.map_eq_some_iff.mp hc
  have hg : slot.generation = h.generation := congrArg HandleSlot.generation he
  rw [Arena.handleOf?, hslot, Option.map_some, hg]

theorem nodeAt? (hr : a.Represents s) (hl : s.toList = items ++ (h, i) :: more) :
    a.nodeAt? h.index =
      some ⟨i, lastIndex (items.map (·.1)), firstIndex (more.map (·.1))⟩ := by
  have hi := hr.instructions (h, i) (by simp [hl])
  obtain ⟨node, hn, rfl⟩ := Option.map_eq_some_iff.mp hi
  have hlinks := hr.chained.links (items.map (·.1)) h (more.map (·.1)) (by simp [handles, hl])
  rw [linksAt?, hn] at hlinks
  obtain ⟨j, prev, next⟩ := node
  cases hlinks
  exact hn

theorem follow_firstIndex (hr : a.Represents s) (hh : ∀ h ∈ xs, s.contains h) :
    a.follow (firstIndex xs) = some xs.head? := by
  cases xs with
  | nil => rfl
  | cons h xs =>
    rw [firstIndex, List.head?_cons, Option.map_some, follow,
      hr.handleOf? (hh h List.mem_cons_self), Option.map_some]

theorem follow_lastIndex (hr : a.Represents s) (hh : ∀ h ∈ xs, s.contains h) :
    a.follow (lastIndex xs) = some xs.getLast? := by
  rw [lastIndex]
  cases hx : xs.getLast? with
  | none => rfl
  | some h =>
    rw [Option.map_some, follow, hr.handleOf? (hh h (List.mem_of_getLast? hx)), Option.map_some]

/-- Every instruction has a slot of its own. -/
theorem length_le_slots (hr : a.Represents s) (hs : s.Linked) :
    s.toList.length ≤ a.slots.size := by
  have hn : (s.handles.map (·.index.toNat)).Nodup := by
    have hn := (index_nodup hs).map (f := UInt32.toNat) fun _ _ => UInt32.toNat_inj.mp
    rwa [List.map_map] at hn
  have hsub : s.handles.map (·.index.toNat) ⊆ List.range a.slots.size := by
    intro k hk
    obtain ⟨h, hh, rfl⟩ := List.mem_map.mp hk
    have hslot := contains_iff.mp ((hs.live h).mpr hh)
    rw [hr.slots] at hslot
    obtain ⟨hlt, -⟩ := Array.getElem?_eq_some_iff.mp hslot
    rw [Array.size_map] at hlt
    exact List.mem_range.mpr hlt
  have hle := (List.subperm_of_subset hn hsub).length_le
  rwa [List.length_map, List.length_range, handles, List.length_map] at hle

theorem items_eq (hr : a.Represents s) (hs : s.Linked) : a.items = some s.toList := by
  have hv : ∀ before item after, s.toList = before ++ item :: after → a.visit item.1.index =
      some (some (item, after.head?.map (·.1.index))) := by
    rintro before ⟨h, i⟩ after hl
    have hn := hr.nodeAt? hl
    have hh := hr.handleOf? ((hs.live h).mpr (by simp [handles, hl]))
    rw [Arena.handleOf?] at hh
    obtain ⟨slot, hslot, hg⟩ := Option.map_eq_some_iff.mp hh
    simp only [Arena.nodeAt?, hslot, Option.bind_eq_bind, Option.bind_some] at hn
    simp [visit, hslot, hn, hg, firstIndex, Function.comp_def]
  have hw := walk_eq (·.1.index) id (hr.length_le_slots hs) hv
  rw [List.map_id] at hw
  rw [items, hr.chained.head, firstIndex, handles, List.head?_map, Option.map_map]
  exact hw

/-- The link back from each instruction leads to the one before it. -/
theorem handlesBack (hr : a.Represents s) (hs : s.Linked) (hl : s.toList = items ++ more) :
    a.handlesBack (items.getLast?.map (·.1)) = some (items.map (·.1)).reverse := by
  have hv : ∀ before h after, (items.map (·.1)).reverse = before ++ h :: after →
      a.visitBack h = some (some (h, after.head?.map id)) := by
    intro before h after he
    have he : items.map (·.1) = after.reverse ++ h :: before.reverse := by
      rw [← List.reverse_reverse (items.map _), he]
      simp
    obtain ⟨front, back, rfl, hf, hb⟩ := List.map_eq_append_iff.mp he
    obtain ⟨⟨g, i⟩, back, rfl, rfl, -⟩ := List.map_eq_cons_iff.mp hb
    rw [List.append_assoc, List.cons_append] at hl
    have hc : s.contains g := (hs.live g).mpr (by simp [handles, hl])
    have hlive : ∀ g ∈ front.map (·.1), s.contains g := by
      intro g hg
      rw [hs.live, handles, hl, List.map_append]
      exact List.mem_append_left _ hg
    rw [visitBack, Arena.prev, hr.node?_eq hc, hr.nodeAt? hl, Option.bind_some,
      hr.follow_lastIndex hlive, hf, List.getLast?_reverse, Option.map_id]
    rfl
  have hn : (items.map (·.1)).reverse.length ≤ a.slots.size := by
    have hle := hr.length_le_slots hs
    rw [hl, List.length_append] at hle
    simp only [List.length_reverse, List.length_map]
    omega
  have hw := walk_eq id id hn hv
  rw [List.map_id, Option.map_id, List.head?_reverse, List.getLast?_map] at hw
  exact hw

theorem targeters_eq (hr : a.Represents s) (hs : s.Linked) :
    a.targeters h = some (s.targeters h) := by
  rw [Arena.targeters, hr.items_eq hs]
  rfl

end Represents

end Classfile.Arena
