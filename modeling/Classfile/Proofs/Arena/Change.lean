import Classfile.Proofs.Arena.Splice

/-!
Instructions change in their places, and the links stay. One instruction is found by its handle; all
of them are gone through as they lie in memory, which is not the order of the sequence.
-/
namespace Classfile

open InstructionSeq Arena

namespace ArenaM

variable {a : Arena} {s t : InstructionSeq} {h : Handle} {i : Instruction Handle} {index : UInt32}
  {items more : List (Handle × Instruction Handle)}

/-! ### Changing instructions in their places -/

theorem change_linksAt? {f : Instruction Handle → Instruction Handle} {k : UInt32} :
    (a.change index fun node => { node with instruction := f node.instruction }).linksAt? k =
      a.linksAt? k := by
  simp only [linksAt?, change_nodeAt?]
  split
  · cases a.nodeAt? k <;> rfl
  · rfl

theorem represents_change {f : Instruction Handle → Instruction Handle} (hr : a.Represents s)
    (hs : s.Linked) (hl : s.toList = items ++ (h, i) :: more)
    (ht : t.toList = items ++ (h, f i) :: more) (hslots : t.slots = s.slots)
    (hfree : t.free = s.free) :
    (a.change h.index fun node =>
      { node with instruction := f node.instruction }).Represents t where
  chained := by
    have hh : t.handles = s.handles := by
      rw [handles, ht, handles, hl, List.map_append, List.map_append]
      rfl
    rw [hh]
    exact ⟨hr.chained.head, hr.chained.tail, fun us g vs he =>
      change_linksAt?.trans (hr.chained.links us g vs he)⟩
  instructions := by
    intro item hm
    rw [ht, List.mem_append, List.mem_cons, or_left_comm, ← List.mem_append] at hm
    rw [instructionAt?, change_nodeAt?]
    rcases hm with rfl | hm
    · rw [if_pos rfl, hr.nodeAt? hl]
      rfl
    · have hnodup := index_nodup hs
      rw [handles, hl, List.map_append, List.map_cons] at hnodup
      have hne := index_ne_of_nodup hnodup item.1 (by
        rw [← List.map_append]
        exact List.mem_map_of_mem hm)
      rw [if_neg hne.symm]
      exact hr.instructions item (mem_of_mem_around hl hm)
  slots := by rw [hslots, hr.slots, change_shape]
  free := hr.free.trans hfree.symm
  size := by
    refine Eq.trans hr.size ?_
    rw [size_eq_length, size_eq_length, hl, ht]
    simp

theorem refines_replace (hr : a.Represents s) (hs : s.Linked) :
    Refines (replace h i) a (s.replace h i) Follows := by
  refine (asks_position hr hs).bind ?_
  rintro - n - ⟨hc, items, j, more, hl, rfl, hj⟩
  refine (asks_checkTargets hr).bind fun _ _ _ _ => ?_
  rw [hj]
  refine ⟨j, _, ?_, rfl,
    represents_change (f := fun _ => i) hr hs hl (set_between hl) rfl rfl⟩
  rw [EStateM.bind_of_ok (modifyNode_run (hr.nodeAt? hl))]
  rfl

theorem refines_setTarget {target : Handle} (hr : a.Represents s) (hs : s.Linked) :
    Refines (setTarget h target) a (s.setTarget h target) Follows := by
  refine (asks_position hr hs).bind ?_
  rintro - n - ⟨hc, items, j, more, hl, rfl, hj⟩
  refine (asks_checkLive hr).bind fun _ _ _ _ => ?_
  rw [hj, Option.bind_some]
  have hb := modifyNode_run (f := fun node => { node with
    instruction := (node.instruction.setTarget? target).getD node.instruction }) (hr.nodeAt? hl)
  cases hset : j.setTarget? target with
  | none =>
    refine ⟨false, _, ?_, rfl, represents_change
      (f := fun k => (k.setTarget? target).getD k) (i := j) hr hs hl ?_ rfl rfl⟩
    · rw [EStateM.bind_of_ok hb]
      simp only [hset]
      rfl
    · rw [hset]
      exact hl
  | some k =>
    refine ⟨true, _, ?_, rfl, represents_change
      (f := fun k => (k.setTarget? target).getD k) (i := j) hr hs hl ?_ rfl rfl⟩
    · rw [EStateM.bind_of_ok hb]
      simp only [hset]
      rfl
    · rw [hset]
      exact set_between hl

/-! ### Changing all instructions -/

/-- The instructions in the slots, each with the number of its slot. -/
def stored (a : Arena) : List (Nat × Instruction Handle) :=
  a.slots.toList.zipIdx.filterMap fun (slot, k) =>
    slot.node.map fun node => (k, node.instruction)

theorem mem_stored {k : Nat} : (k, i) ∈ stored a ↔
    ∃ slot node, a.slots[k]? = some slot ∧ slot.node = some node ∧ node.instruction = i := by
  simp only [stored, List.mem_filterMap, Prod.exists, List.mk_mem_zipIdx_iff_getElem?,
    Array.getElem?_toList, Option.map_eq_some_iff, Prod.mk.injEq]
  constructor
  · rintro ⟨slot, k, hs, node, hn, rfl, rfl⟩
    exact ⟨slot, node, hs, hn, rfl⟩
  · rintro ⟨slot, node, hs, hn, rfl⟩
    exact ⟨slot, k, hs, node, hn, rfl, rfl⟩

theorem stored_nodup : (stored a).Nodup := by
  have hz : a.slots.toList.zipIdx.Pairwise fun x y => x.2 ≠ y.2 := by
    have hn : (a.slots.toList.zipIdx.map (·.2)).Nodup := by
      rw [List.zipIdx_map_snd]
      exact List.nodup_range'
    exact List.pairwise_map.mp hn
  refine hz.filterMap _ fun x y hne entry he entry' he' heq => hne ?_
  obtain ⟨_, -, rfl⟩ := Option.map_eq_some_iff.mp he
  obtain ⟨_, -, rfl⟩ := Option.map_eq_some_iff.mp he'
  exact congrArg Prod.fst heq

/-- What lies in memory is what is in the sequence, if not in the same order. -/
theorem stored_perm (hr : a.Represents s) (hs : s.Linked) :
    (stored a).Perm (s.toList.map fun item => (item.1.index.toNat, item.2)) := by
  refine (List.perm_ext_iff_of_nodup stored_nodup ?_).mpr ?_
  · have hn := index_nodup hs
    rw [handles, List.map_map] at hn
    refine List.Nodup.of_map (fun entry => UInt32.ofNat entry.1) ?_
    rw [List.map_map]
    convert hn using 2
    funext item
    simp
  · rintro ⟨k, i⟩
    rw [mem_stored, List.mem_map]
    constructor
    · rintro ⟨slot, node, hk, hn, rfl⟩
      have hslot : s.slots[k]? = some ⟨slot.generation, true⟩ := by
        rw [hr.slot, hk, Option.map_some, ArenaSlot.shape, hn, Option.isSome_some]
      have hb : k < UInt32.size :=
        Nat.lt_of_lt_of_le (Array.getElem?_eq_some_iff.mp hslot).1 hs.capacity
      have hkn : (UInt32.ofNat k).toNat = k := UInt32.toNat_ofNat_of_lt' hb
      have hc : s.contains ⟨UInt32.ofNat k, slot.generation⟩ := by
        rw [contains_iff, hkn, hslot]
      obtain ⟨⟨h, j⟩, hm, he⟩ := List.mem_map.mp ((hs.live _).mp hc)
      simp only at he
      subst he
      have hi := hr.instructions _ hm
      simp only [instructionAt?, nodeAt?, hkn, hk, Option.bind_eq_bind, Option.bind_some, hn,
        Option.map_some, Option.some.injEq] at hi
      exact ⟨_, hm, by rw [hkn, hi]⟩
    · rintro ⟨item, hm, he⟩
      cases he
      obtain ⟨node, hn, hi⟩ := Option.map_eq_some_iff.mp (hr.instructions item hm)
      obtain ⟨slot, hk, hn⟩ := Option.bind_eq_some_iff.mp hn
      exact ⟨slot, node, hk, hn, hi⟩

theorem countTargets_eq (hr : a.Represents s) (hs : s.Linked) :
    (a.slots.toList.flatMap ArenaSlot.targets).count h = s.countTargets h := by
  have hm : a.slots.toList.flatMap ArenaSlot.targets =
      (stored a).flatMap fun entry => entry.2.targets := by
    rw [stored]
    generalize 0 = k
    induction a.slots.toList generalizing k with
    | nil => rfl
    | cons slot slots ih =>
      obtain ⟨generation, node⟩ := slot
      rw [List.flatMap_cons, List.zipIdx_cons, List.filterMap_cons, ih (k + 1)]
      cases node <;> rfl
  rw [hm, ((stored_perm hr hs).flatMap_right _).count_eq, List.flatMap_map, countTargets]

theorem map_nodeAt? {f : ArenaNode → ArenaNode} :
    nodeAt? { a with slots := a.slots.map (ArenaSlot.change f) } index =
      (a.nodeAt? index).map f := by
  simp only [nodeAt?, Array.getElem?_map]
  cases a.slots[index.toNat]? <;> rfl

theorem represents_map {f : Instruction Handle → Instruction Handle} (hr : a.Represents s)
    (ht : t.toList = s.toList.map fun item => (item.1, f item.2)) (hslots : t.slots = s.slots)
    (hfree : t.free = s.free) :
    Represents { a with slots := a.slots.map (ArenaSlot.change fun node => { node with
      instruction := f node.instruction }) } t where
  chained := by
    have hh : t.handles = s.handles := by
      rw [handles, ht, handles, List.map_map]
      rfl
    rw [hh]
    refine ⟨hr.chained.head, hr.chained.tail, fun us g vs he => ?_⟩
    rw [← hr.chained.links us g vs he, linksAt?, map_nodeAt?, Option.map_map, linksAt?]
    rfl
  instructions := by
    intro item hm
    rw [ht] at hm
    obtain ⟨old, hold, rfl⟩ := List.mem_map.mp hm
    obtain ⟨node, hn, hi⟩ := Option.map_eq_some_iff.mp (hr.instructions old hold)
    rw [instructionAt?, map_nodeAt?, hn, ← hi]
    rfl
  slots := by
    rw [hslots, hr.slots, Array.map_map]
    congr 1
    funext slot
    simp [ArenaSlot.shape, ArenaSlot.change]
  free := hr.free.trans hfree.symm
  size := by
    refine Eq.trans hr.size ?_
    rw [size_eq_length, size_eq_length, ht, List.length_map]

theorem refines_redirect {old new : Handle} (hr : a.Represents s) (hs : s.Linked) :
    Refines (redirect old new) a (s.redirect old new) Follows := by
  refine (asks_checkLive hr).bind fun _ _ _ _ => ?_
  refine ⟨_, _, rfl, countTargets_eq hr hs, represents_map hr ?_ rfl rfl⟩
  rw [toList, Array.toList_map]
  rfl

end ArenaM

end Classfile
