import Classfile.Proofs.Code.Edits
import Classfile.Proofs.Code.Reachable

/-!
No jump dangles. What an instruction in the sequence goes to is in the sequence too, however many
edits were made and however many slots there are, as long as the generations last. With more slots
than handles can name, instructions can share a handle or have one that stands for nothing any more,
so it is said of every handle of the sequence whether it is live or has been outgrown.
-/
namespace Classfile.InstructionSeq

variable {s t : InstructionSeq} {h g : Handle} {i j : Instruction Handle} {n k : Nat}
  {xs ys : List (Handle × Instruction Handle)} {slot : HandleSlot} {edits : List Edit}

/-- What the edits keep, after a number of removals. -/
structure Anchored (s : InstructionSeq) (n : Nat) : Prop where
  young : s.Young n
  /-- No slot is dead from the start. -/
  used : ∀ (k : Nat) generation, s.slots[k]? = some ⟨generation, false⟩ → 0 < generation
  spare : s.Spare
  handles : ∀ h ∈ s.handles, s.contains h ∨ s.Outgrown h
  live : ∀ h, s.contains h → h ∈ s.handles
  targets : ∀ item ∈ s.toList, ∀ t ∈ item.2.targets, t ∈ s.handles
  /-- An instruction that has been outgrown can go where it likes. -/
  liveTargets : ∀ item ∈ s.toList, s.contains item.1 → ∀ t ∈ item.2.targets, s.contains t

theorem anchored_empty : empty.Anchored 0 where
  young := by simp [Young, empty]
  used := by simp [empty]
  spare := linked_empty.spare
  handles := by simp [InstructionSeq.handles, toList, empty]
  live := by simp [contains_iff, empty]
  targets := by simp [toList, empty]
  liveTargets := by simp [toList, empty]

/-! ### Code that was read -/

theorem ofList_contains {instructions : List (Instruction Handle)} :
    (ofList instructions).contains h ↔ h.generation = 0 ∧ h.index.toNat < instructions.length := by
  obtain ⟨index, generation⟩ := h
  rw [contains_iff, ofList, Array.getElem?_replicate]
  split
  · rename_i hlt
    simp [hlt, eq_comm]
  · rename_i hlt
    simp [hlt]

/-- The handle of every position is live, whether it is that of another position as well or not. -/
theorem ofList_contains_handleOf {instructions : List (Instruction Handle)}
    (hn : n < instructions.length) : (ofList instructions).contains (handleOf n) := by
  refine ofList_contains.mpr ⟨rfl, Nat.lt_of_le_of_lt ?_ hn⟩
  rw [handleOf, UInt32.toNat_ofNat']
  exact Nat.mod_le _ _

theorem anchored_ofList {instructions : List (Instruction Handle)}
    (ht : ∀ i ∈ instructions, ∀ t ∈ i.targets, ∃ n < instructions.length, t = handleOf n) :
    (ofList instructions).Anchored 0 := by
  have hhandles : ∀ h ∈ (ofList instructions).handles, (ofList instructions).contains h := by
    intro h hh
    rw [ofList_handles] at hh
    obtain ⟨n, hn, rfl⟩ := List.mem_map.mp hh
    exact ofList_contains_handleOf (List.mem_range.mp hn)
  have htargets : ∀ item ∈ (ofList instructions).toList, ∀ t ∈ item.2.targets,
      ∃ n < instructions.length, t = handleOf n := by
    intro item hi t hx
    rw [ofList_toList] at hi
    obtain ⟨⟨i, n⟩, hm, rfl⟩ := List.mem_map.mp hi
    exact ht i (List.fst_mem_of_mem_zipIdx hm) t hx
  refine ⟨?_, ?_, ⟨by simp [ofList], List.nodup_nil⟩, fun h hh => .inl (hhandles h hh), ?_, ?_, ?_⟩
  · intro k slot hs
    obtain ⟨-, rfl⟩ := by simpa [ofList, Array.getElem?_replicate] using hs
    exact Nat.le_refl 0
  · intro k generation hs
    simp [ofList, Array.getElem?_replicate] at hs
  · rintro ⟨index, generation⟩ hc
    obtain ⟨hg, hlt⟩ := ofList_contains.mp hc
    simp only at hg hlt
    rw [ofList_handles]
    exact List.mem_map.mpr ⟨index.toNat, List.mem_range.mpr hlt, by simp [handleOf, hg]⟩
  · intro item hi t hx
    obtain ⟨n, hn, rfl⟩ := htargets item hi t hx
    rw [ofList_handles]
    exact List.mem_map_of_mem (List.mem_range.mpr hn)
  · intro item hi _ t hx
    obtain ⟨n, hn, rfl⟩ := htargets item hi t hx
    exact ofList_contains_handleOf hn

/-! ### Putting an instruction in -/

theorem eq_freshHandle_of_contains_place (hc : (s.place k i).2.contains h) :
    s.contains h ∨ h = s.freshHandle := by
  obtain ⟨items, slots, free⟩ := s
  obtain ⟨index, generation⟩ := h
  rw [contains_iff] at hc ⊢
  cases free with
  | nil =>
    rw [place, Array.getElem?_push] at hc
    split at hc
    · rename_i hx
      obtain rfl : index = UInt32.ofNat slots.size := by rw [← hx, UInt32.ofNat_toNat]
      cases hc
      exact .inr rfl
    · exact .inl hc
  | cons index' free =>
    rw [place, Array.getElem?_setIfInBounds] at hc
    split at hc
    · rename_i hx
      obtain rfl : index' = index := UInt32.toNat_inj.mp hx
      split at hc
      · obtain ⟨rfl, -⟩ := HandleSlot.mk.inj (Option.some.inj hc)
        exact .inr rfl
      · cases hc
    · exact .inl hc

namespace Anchored

/-- A handle that is live afterwards was live before, or it is the new one and no instruction had
it. -/
theorem of_contains_place (ha : s.Anchored n) (hc : (s.place k i).2.contains h) :
    s.contains h ∨ (h = s.freshHandle ∧ h ∉ s.handles) := by
  by_cases hm : h ∈ s.handles
  · rcases ha.handles h hm with hl | ho
    · exact .inl hl
    · exact absurd hc ho.place.not_contains
  · exact (eq_freshHandle_of_contains_place hc).imp_right fun he => ⟨he, hm⟩

/-- When handles cannot name the new slot, the handle that is given out names an old one. -/
theorem freshHandle (ha : s.Anchored n) :
    (s.place k i).2.contains s.freshHandle ∨ (s.place k i).2.Outgrown s.freshHandle := by
  obtain ⟨items, slots, free⟩ := s
  cases free with
  | nil =>
    have hlt : (UInt32.ofNat slots.size).toNat < slots.size + 1 := by
      rw [UInt32.toNat_ofNat']
      exact Nat.lt_succ_of_le (Nat.mod_le _ _)
    have hp : (place ⟨items, slots, []⟩ k i).2.slots = slots.push ⟨0, true⟩ := rfl
    rw [contains_iff, Outgrown, hp]
    simp only [InstructionSeq.freshHandle]
    rcases Nat.lt_succ_iff_lt_or_eq.mp hlt with hlt | heq
    · obtain ⟨⟨generation, live⟩, hs⟩ :
          ∃ slot, slots[(UInt32.ofNat slots.size).toNat]? = some slot :=
        ⟨_, Array.getElem?_eq_getElem hlt⟩
      rw [Array.getElem?_push, if_neg (Nat.ne_of_lt hlt), hs]
      by_cases hg : generation = 0
      · subst hg
        cases live with
        | true => exact .inl rfl
        | false => exact absurd (ha.used _ _ hs) (UInt32.lt_irrefl 0)
      · exact .inr ⟨_, rfl, UInt32.pos_iff_ne_zero.mpr hg⟩
    · rw [heq, Array.getElem?_push_size]
      exact .inl rfl
  | cons index free =>
    obtain ⟨generation, hd⟩ := ha.spare.dead index List.mem_cons_self
    simp only at hd
    have hb := (Array.getElem?_eq_some_iff.mp hd).1
    refine .inl (contains_iff.mpr ?_)
    simp [place, InstructionSeq.freshHandle, hb]

theorem place (ha : s.Anchored n) (hk : k ≤ s.size) (ht : ∀ t ∈ i.targets, s.contains t) :
    (s.place k i).2.Anchored n := by
  have hm : ∀ h, h ∈ (s.place k i).2.handles ↔ h = s.freshHandle ∨ h ∈ s.handles := by
    intro h
    have hl : k ≤ s.handles.length := by simpa [InstructionSeq.handles, toList, size] using hk
    rw [place_handles hk, (List.perm_insertIdx _ _ hl).mem_iff, List.mem_cons]
  refine ⟨young_place ha.young, ?_, spare_place ha.spare, ?_, ?_, ?_, ?_⟩
  · intro k generation hs
    rcases place_slot hs with he | ⟨live, hs'⟩
    · cases he
    · -- A live slot would have stayed live.
      obtain ⟨live', hp, himp⟩ := place_of_slot hs'
      rw [hs] at hp
      cases hp
      cases live with
      | true => cases himp rfl
      | false => exact ha.used k generation hs'
  · intro h hh
    rcases (hm h).mp hh with rfl | hh
    · exact ha.freshHandle
    · exact (ha.handles h hh).imp contains_place Outgrown.place
  · intro h hc
    rw [hm]
    rcases ha.of_contains_place hc with hl | ⟨he, -⟩
    · exact .inr (ha.live h hl)
    · exact .inl he
  · intro item hi t hx
    rw [hm]
    rw [place_toList hk] at hi
    rcases List.eq_or_mem_of_mem_insertIdx hi with rfl | hi
    · exact .inr (ha.live t (ht t hx))
    · exact .inr (ha.targets item hi t hx)
  · intro item hi hc t hx
    rw [place_toList hk] at hi
    refine contains_place ?_
    rcases List.eq_or_mem_of_mem_insertIdx hi with rfl | hi
    · exact ht t hx
    · rcases ha.of_contains_place hc with hl | ⟨-, hn⟩
      · exact ha.liveTargets item hi hl t hx
      · exact absurd (List.mem_map_of_mem hi) hn

/-! ### Taking one out -/

theorem erase (ha : s.Anchored n) (hn : n + 1 < UInt32.size) (hl : s.toList = xs ++ (h, i) :: ys)
    (hc : s.contains h) (ht : ∀ item ∈ xs ++ ys, item.1 ≠ h → h ∉ item.2.targets) :
    Anchored ⟨s.items.eraseIdxIfInBounds xs.length, retired s.slots h, h.index :: s.free⟩
      (n + 1) := by
  have hslot := contains_iff.mp hc
  have hlist : toList ⟨s.items.eraseIdxIfInBounds xs.length, retired s.slots h,
      h.index :: s.free⟩ = xs ++ ys := erase_between hl
  have hcon : ∀ g, contains ⟨s.items.eraseIdxIfInBounds xs.length, retired s.slots h,
      h.index :: s.free⟩ g ↔ g ≠ h ∧ s.contains g := by
    intro g
    rw [contains_iff (s := s)]
    exact contains_retired hslot _ _
  have hm : ∀ g, g ≠ h → (g ∈ (xs ++ ys).map (·.1) ↔ g ∈ s.handles) := by
    intro g hg
    simp [InstructionSeq.handles, hl, hg]
  refine ⟨young_retired hc ha.young, ?_, spare_retired ha.spare hslot _, ?_, ?_, ?_, ?_⟩
  · intro k generation hs
    rw [retired, Array.getElem?_setIfInBounds] at hs
    split at hs
    · split at hs
      · cases hs
        exact UInt32.lt_of_le_of_lt UInt32.zero_le (generation_lt ha.young hn hc)
      · cases hs
    · exact ha.used k generation hs
  · intro g hg
    rw [InstructionSeq.handles, hlist] at hg
    by_cases he : g = h
    · rw [he]
      exact .inr (outgrown_retired ha.young hn hc)
    · rcases ha.handles g ((hm g he).mp hg) with hlive | ho
      · exact .inl ((hcon g).mpr ⟨he, hlive⟩)
      · exact .inr (ho.retired ha.young hn hc)
  · intro g hg
    obtain ⟨hne, hlive⟩ := (hcon g).mp hg
    rw [InstructionSeq.handles, hlist]
    exact (hm g hne).mpr (ha.live g hlive)
  · intro item hi t hx
    rw [hlist] at hi
    rw [InstructionSeq.handles, hlist]
    by_cases he : t = h
    · -- Only an instruction of the same handle can still go there.
      rw [he] at hx ⊢
      by_cases hne : item.1 = h
      · exact hne ▸ List.mem_map_of_mem hi
      · exact absurd hx (ht item hi hne)
    · exact (hm t he).mpr (ha.targets item (mem_of_mem_around hl hi) t hx)
  · intro item hi hg t hx
    rw [hlist] at hi
    obtain ⟨hne, hlive⟩ := (hcon item.1).mp hg
    refine (hcon t).mpr ⟨?_, ha.liveTargets item (mem_of_mem_around hl hi) hlive t hx⟩
    rintro rfl
    exact ht item hi hne hx

/-! ### Changing them in their places -/

/-- An edit that leaves every instruction its handle. -/
theorem of_handles (ha : s.Anchored n) (hslots : t.slots = s.slots) (hfree : t.free = s.free)
    (hh : t.handles = s.handles)
    (ht : ∀ item ∈ t.toList, ∀ target ∈ item.2.targets, target ∈ s.handles)
    (hl : ∀ item ∈ t.toList, s.contains item.1 → ∀ target ∈ item.2.targets, s.contains target) :
    t.Anchored n := by
  have hcon : ∀ h, t.contains h = s.contains h := fun h => by rw [contains, contains, hslots]
  refine ⟨?_, hslots ▸ ha.used, ⟨?_, hfree ▸ ha.spare.nodup⟩, ?_, ?_, hh ▸ ht, ?_⟩
  · rw [Young, hslots]
    exact ha.young
  · rw [hfree, hslots]
    exact ha.spare.dead
  · simp only [hh, hcon, Outgrown, hslots]
    exact ha.handles
  · simp only [hh, hcon]
    exact ha.live
  · simp only [hcon]
    exact hl

theorem set (ha : s.Anchored n) (hl : s.toList = xs ++ (h, i) :: ys) (hc : s.contains h)
    (ht : ∀ t ∈ j.targets, s.contains t ∨ t ∈ i.targets) :
    Anchored { s with items := s.items.setIfInBounds xs.length (h, j) } n := by
  have hlist := set_between (j := j) hl
  have hi : (h, i) ∈ s.toList := by simp [hl]
  have hmem : ∀ item ∈ xs ++ (h, j) :: ys, item = (h, j) ∨ item ∈ s.toList := by
    intro item hm
    rw [List.mem_append, List.mem_cons, or_left_comm, ← List.mem_append] at hm
    exact hm.imp_right (mem_of_mem_around hl)
  refine ha.of_handles rfl rfl ?_ ?_ ?_
  · rw [InstructionSeq.handles, hlist, InstructionSeq.handles, hl, List.map_append, List.map_append]
    rfl
  · intro item hm t hx
    rw [hlist] at hm
    rcases hmem item hm with rfl | hm
    · rcases ht t hx with hlive | hx
      · exact ha.live t hlive
      · exact ha.targets _ hi t hx
    · exact ha.targets item hm t hx
  · intro item hm hlive t hx
    rw [hlist] at hm
    rcases hmem item hm with rfl | hm
    · exact (ht t hx).elim id fun hx => ha.liveTargets _ hi hc t hx
    · exact ha.liveTargets item hm hlive t hx

theorem redirect {old new : Handle} (ha : s.Anchored n) (hc : s.contains new) :
    Anchored { s with items := s.items.map fun (h, i) =>
      (h, i.mapTargets fun t => if t = old then new else t) } n := by
  refine ha.of_handles rfl rfl (by simp [InstructionSeq.handles, toList]) ?_ ?_
  · intro item hm t hx
    simp only [toList, Array.toList_map, List.mem_map] at hm
    obtain ⟨⟨g, j⟩, hm, rfl⟩ := hm
    rw [Instruction.targets_mapTargets, List.mem_map] at hx
    obtain ⟨u, hu, rfl⟩ := hx
    split
    · exact ha.live new hc
    · exact ha.targets (g, j) hm u hu
  · intro item hm hlive t hx
    simp only [toList, Array.toList_map, List.mem_map] at hm
    obtain ⟨⟨g, j⟩, hm, rfl⟩ := hm
    rw [Instruction.targets_mapTargets, List.mem_map] at hx
    obtain ⟨u, hu, rfl⟩ := hx
    split
    · exact hc
    · exact ha.liveTargets (g, j) hm hlive u hu

theorem step {cost : Nat} (ha : s.Anchored n) (hs : s.Step cost t)
    (hn : n + cost < UInt32.size) : t.Anchored (n + cost) := by
  cases hs with
  | same => exact ha
  | place hk ht => exact ha.place hk ht
  | erase hl hc ht => exact ha.erase hn hl hc ht
  | set hl hc ht => exact ha.set hl hc ht
  | redirect hc => exact ha.redirect hc

theorem run (ha : s.Anchored n) (hn : n + s.removals edits < UInt32.size) :
    (s.run edits).Anchored (n + s.removals edits) :=
  run_invariant (fun _ _ _ _ ha he hn => ha.step (step_of_edit he) hn) ha hn

end Anchored

end Classfile.InstructionSeq
