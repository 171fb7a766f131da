import Classfile.Proofs.Pool.Requests

/-!
What the pool says of every index: that a constant starts there, that it is the second slot of a
wide constant, or that it is not used. The second slot of a wide constant that comes last counts as
not used, because the search finds nothing that starts behind it.
-/
namespace Classfile.ConstantPool

variable {pool : ConstantPool} {i : ConstantIndex} {c : Constant} {before after : List Constant}

theorem Coherent.table_eq (hp : pool.Coherent) :
    pool.table = WidthTable.ofList 1 (pool.toList.map (·.2)) := by
  obtain ⟨constants, ht⟩ := hp.table
  rw [toList_map_snd ht, ht]

theorem Coherent.extent_eq (hp : pool.Coherent) :
    pool.extent = 1 + Width.total (pool.toList.map (·.2)) := by
  rw [ConstantPool.extent, hp.table_eq, WidthTable.ofList_extent]

/-- All of these constants start before an index behind the last of them. -/
theorem lt_of_placed {n : Nat} (hn : 1 + Width.total before ≤ n) :
    ∀ entry ∈ Width.placed 1 before, entry.1 < n :=
  fun _ he => Nat.lt_of_lt_of_le (Width.lt_of_mem_placed (fun c _ => c.width_pos) he) hn

/-- The constant takes its first slot at `n`, with the constants `after` behind it. -/
def StartsAt (pool : ConstantPool) (n : Nat) (c : Constant) (after : List Constant) : Prop :=
  ∃ before, pool.toList.map (·.2) = before ++ c :: after ∧ n = 1 + Width.total before

theorem slot_start (hp : pool.Coherent) (h : pool.StartsAt i.value.toNat c after) :
    pool.slot i = .entry c := by
  obtain ⟨before, h, hi⟩ := h
  rw [slot, hp.table_eq, h, hi, WidthTable.locate_start fun c _ => c.width_pos]

/-- At the second slot of a wide constant it matters whether another constant follows. -/
theorem slot_second {n : Nat} (hp : pool.Coherent) (h : pool.StartsAt n c after)
    (hw : c.isWide = true) (hi : i.value.toNat = n + 1) :
    pool.slot i = if after = [] then .unused else .phantom := by
  obtain ⟨before, h, rfl⟩ := h
  have hwidth : Width.width c = 2 := if_pos hw
  have hstart : ∀ entry ∈ Width.placed 1 (before ++ [c]), entry.1 < i.value.toNat := by
    intro entry he
    rw [Width.placed_append] at he
    rcases List.mem_append.mp he with he | he
    · exact lt_of_placed (by omega) entry he
    · cases List.mem_singleton.mp he
      omega
  have hz : i.value ≠ 0 := by
    intro hz
    rw [hz, UInt16.toNat_zero] at hi
    omega
  rw [slot, hp.table_eq, h, List.append_cons]
  cases after with
  | nil => rw [List.append_nil, WidthTable.locate_beyond hstart, if_pos rfl]
  | cons d after =>
    have hnext : i.value.toNat < 1 + Width.total (before ++ [c]) := by
      simp only [Width.total_append, Width.total_cons, Width.total_nil, hwidth]
      omega
    simp only [WidthTable.locate_inside hstart hnext, if_neg hz, reduceCtorEq, if_false]

theorem slot_zero (hp : pool.Coherent) : pool.slot ⟨0⟩ = .unused := by
  rw [slot, hp.table_eq]
  cases pool.toList.map (·.2) with
  | nil => rfl
  | cons c constants =>
    have hstart : ∀ entry ∈ Width.placed 1 ([] : List Constant), entry.1 < 0 := nofun
    have hl : (WidthTable.ofList 1 (c :: constants)).locate 0 = .inside 0 :=
      WidthTable.locate_inside hstart Nat.zero_lt_one
    simp only [UInt16.toNat_zero, hl, if_true]

theorem slot_of_extent_le (hp : pool.Coherent) (hi : pool.extent ≤ i.value.toNat) :
    pool.slot i = .unused := by
  rw [hp.extent_eq] at hi
  rw [slot, hp.table_eq, WidthTable.locate_beyond (lt_of_placed hi)]

/-- What the constants of the pool make of an index. -/
inductive Verdict (pool : ConstantPool) (i : ConstantIndex) : Slot → Prop
  | zero (hi : i = ⟨0⟩) : Verdict pool i .unused
  | behind (hi : pool.extent ≤ i.value.toNat) : Verdict pool i .unused
  | first {c : Constant} {after : List Constant} (h : pool.StartsAt i.value.toNat c after) :
      Verdict pool i (.entry c)
  | second {n : Nat} {c : Constant} {after : List Constant} (h : pool.StartsAt n c after)
      (hw : c.isWide = true) (hi : i.value.toNat = n + 1) (ha : after ≠ []) :
      Verdict pool i .phantom
  | last {n : Nat} {c : Constant} (h : pool.StartsAt n c []) (hw : c.isWide = true)
      (hi : i.value.toNat = n + 1) : Verdict pool i .unused

theorem verdict_slot (hp : pool.Coherent) (i : ConstantIndex) : pool.Verdict i (pool.slot i) := by
  by_cases hz : i = ⟨0⟩
  · subst hz
    rw [slot_zero hp]
    exact .zero rfl
  by_cases hi : pool.extent ≤ i.value.toNat
  · rw [slot_of_extent_le hp hi]
    exact .behind hi
  have hpos : 1 ≤ i.value.toNat := by
    refine Nat.one_le_iff_ne_zero.mpr fun h => hz ?_
    exact congrArg ConstantIndex.mk (UInt16.toNat_inj.mp h)
  rw [Nat.not_le, hp.extent_eq] at hi
  obtain ⟨before, c, after, h, hlo, hhi⟩ := Width.exists_around hpos hi
  rcases Nat.eq_or_lt_of_le hlo with he | hlt
  · have hs : pool.StartsAt i.value.toNat c after := ⟨before, h, he.symm⟩
    rw [slot_start hp hs]
    exact .first hs
  · -- only a wide constant has another slot
    have hs : pool.StartsAt (1 + Width.total before) c after := ⟨before, h, rfl⟩
    obtain ⟨hw, hi⟩ : c.isWide = true ∧ i.value.toNat = 1 + Width.total before + 1 := by
      simp only [Width.width, Constant.width] at hhi
      split at hhi
      · exact ⟨by assumption, by omega⟩
      · omega
    rw [slot_second hp hs hw hi]
    cases after with
    | nil => exact .last hs hw hi
    | cons d after => exact .second hs hw hi (List.cons_ne_nil d after)

/-- What the pool says of an index after any requests to a new pool, or to one of given constants.
The second slot of a wide constant is a phantom only if another constant follows. -/
theorem slot_run {start : ConstantPool} {requests : List Request}
    (hs : start = empty ∨ ∃ constants, ofTable (WidthTable.ofList 1 constants) = .ok start)
    (hr : start.run requests = pool) (i : ConstantIndex) :
    (∀ c, pool.slot i = .entry c ↔ ∃ after, pool.StartsAt i.value.toNat c after) ∧
    (pool.slot i = .phantom ↔ ∃ n c after, pool.StartsAt n c after ∧ c.isWide = true ∧
      i.value.toNat = n + 1 ∧ after ≠ []) ∧
    (pool.slot i = .unused ↔ i = ⟨0⟩ ∨ pool.extent ≤ i.value.toNat ∨
      ∃ n c, pool.StartsAt n c [] ∧ c.isWide = true ∧ i.value.toNat = n + 1) := by
  have hp : pool.Coherent := hr ▸ (coherent_start hs).run requests
  have hv := verdict_slot hp i
  refine ⟨fun c => ⟨fun h => ?_, fun ⟨after, h⟩ => slot_start hp h⟩, ⟨fun h => ?_, ?_⟩,
    ⟨fun h => ?_, ?_⟩⟩
  · rw [h] at hv
    cases hv with
    | first h => exact ⟨_, h⟩
  · rw [h] at hv
    cases hv with
    | second h hw hi ha => exact ⟨_, _, _, h, hw, hi, ha⟩
  · rintro ⟨n, c, after, h, hw, hi, ha⟩
    rw [slot_second hp h hw hi, if_neg ha]
  · rw [h] at hv
    cases hv with
    | zero hi => exact .inl hi
    | behind hi => exact .inr (.inl hi)
    | last h hw hi => exact .inr (.inr ⟨_, _, h, hw, hi⟩)
  · rintro (rfl | hi | ⟨n, c, h, hw, hi⟩)
    · exact slot_zero hp
    · exact slot_of_extent_le hp hi
    · rw [slot_second hp h hw hi, if_pos rfl]

/-- Between two wide constants there is a phantom, behind the second one there is none. -/
theorem slot_run_wideTwice : ∃ start pool,
    ofTable (WidthTable.ofList 1 [.long 5, .double 7]) = .ok start ∧
    start.run [.methodHandle .getField ⟨2⟩] = pool ∧
    pool.slot ⟨2⟩ = .phantom ∧ pool.slot ⟨4⟩ = .unused := by
  obtain ⟨start, hs⟩ : ∃ start,
    ofTable (WidthTable.ofList 1 [.long 5, .double 7]) = .ok start := ⟨_, rfl⟩
  obtain ⟨-, rfl, -⟩ := ofTable_eq_ok hs
  have h := @slot_run _ _ [.methodHandle .getField ⟨2⟩] (.inr ⟨_, hs⟩) rfl
  refine ⟨_, _, hs, rfl, ?_, ?_⟩
  · exact (h ⟨2⟩).2.1.mpr ⟨1, .long 5, [.double 7], ⟨[], rfl, rfl⟩, rfl, rfl, by simp⟩
  · exact (h ⟨4⟩).2.2.mpr (.inr (.inr ⟨3, .double 7, ⟨[.long 5], rfl, rfl⟩, rfl, rfl⟩))

/-- A single wide constant takes the slots one and two, and the pool goes on at three. Its second
slot is not a phantom, but counts as not used. -/
theorem slot_wideAlone : ∃ pool, ofTable (WidthTable.ofList 1 [.long 42]) = .ok pool ∧
    pool.StartsAt 1 (.long 42) [] ∧ pool.extent = 3 ∧
    pool.slot ⟨2⟩ ≠ .phantom ∧ pool.slot ⟨2⟩ = .unused := by
  obtain ⟨pool, hs⟩ : ∃ pool, ofTable (WidthTable.ofList 1 [.long 42]) = .ok pool := ⟨_, rfl⟩
  have hslot : pool.slot ⟨2⟩ = .unused := by
    obtain ⟨-, rfl, -⟩ := ofTable_eq_ok hs
    rfl
  have hp : pool.StartsAt 1 (.long 42) [] ∧ pool.extent = 3 := by
    obtain ⟨-, rfl, -⟩ := ofTable_eq_ok hs
    exact ⟨⟨[], rfl, rfl⟩, rfl⟩
  exact ⟨pool, hs, hp.1, hp.2, by simp [hslot], hslot⟩

end Classfile.ConstantPool
