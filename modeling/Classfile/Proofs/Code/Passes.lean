import Classfile.Proofs.Code.Acceptance

/-!
Laying out as a loop. A pass places the instructions with the jumps that are widened so far, and the
loop goes on for as long as a pass finds jumps out of reach. No bound is set on the number of
passes, and there is at most one more of them than there are jumps. All that a pass does can be
undone by the next one, so what holds of the layout in the end is said of the last pass alone.
-/
namespace Classfile

open Instruction InstructionSeq

namespace Layout

variable {s : InstructionSeq} {wide : Std.HashSet Handle} {h : Handle} {i : Instruction Handle}
  {n passes offset : Nat} {l : Layout} {xs ys : List (Handle × Instruction Handle)}

/-! ### The passes -/

/-- With the jumps in `wide` widened at first, the layout `l` is what the last of `passes` passes
gives. -/
inductive Passes (s : InstructionSeq) : Std.HashSet Handle → Nat → Layout → Prop
  | last {wide : Std.HashSet Handle} (ho : (widening s wide).oversized s = []) :
    Passes s wide 1 (widening s wide)
  | more {wide : Std.HashSet Handle} {passes : Nat} {l : Layout}
    (ho : (widening s wide).oversized s ≠ [])
    (hp : Passes s (wide.insertMany ((widening s wide).oversized s)) passes l) :
    Passes s wide (passes + 1) l

theorem Passes.unique {m : Nat} {l' : Layout} (h : Passes s wide n l)
    (h' : Passes s wide m l') : n = m ∧ l = l' := by
  induction h generalizing m l' with
  | last ho =>
    cases h' with
    | last => exact ⟨rfl, rfl⟩
    | more hne => exact absurd ho hne
  | more hne _ ih =>
    cases h' with
    | last ho => exact absurd ho hne
    | more _ hp =>
      obtain ⟨rfl, rfl⟩ := ih hp
      exact ⟨rfl, rfl⟩

/-- Every pass but the last widens a jump that was narrow. -/
theorem exists_passes (hn : narrowJumps s wide ≤ n) :
    ∃ passes ≤ narrowJumps s wide + 1, Passes s wide passes (settle s n wide) := by
  induction n generalizing wide with
  | zero =>
    have ho : (widening s wide).oversized s = [] := oversized_settle (n := 0) hn
    exact ⟨1, Nat.le_add_left 1 _, .last ho⟩
  | succ n ih =>
    rw [settle]
    split
    · exact ⟨1, Nat.le_add_left 1 _, .last ‹_›⟩
    · rename_i hne
      obtain ⟨h, hh⟩ := List.exists_mem_of_ne_nil _ hne
      have hlt := narrowJumps_lt hh
      obtain ⟨passes, hle, hp⟩ := ih (Nat.le_of_lt_succ (Nat.lt_of_lt_of_le hlt hn))
      exact ⟨passes + 1, Nat.succ_le_succ (Nat.le_trans hle hlt), .more hne hp⟩

/-! ### What the last pass leaves -/

theorem offsetOf?_eq_some (wide : Std.HashSet Handle) (hs : s.Linked) :
    (∃ offset, (widening s wide).offsetOf? h = some offset) ↔ h ∈ s.handles := by
  constructor
  · rintro ⟨offset, ho⟩
    by_contra hn
    rw [widening_offsetOf?_of_notMem wide hn] at ho
    cases ho
  · intro hh
    obtain ⟨offset, ho, -⟩ := offsetOf?_of_mem wide hs hh
    exact ⟨offset, ho⟩

theorem widening_handleAt? (wide : Std.HashSet Handle) (hs : s.Linked) :
    (widening s wide).handleAt? offset = some h ↔ (widening s wide).offsetOf? h = some offset := by
  rw [handleAt?, Option.map_eq_some_iff]
  simp only [widening_table, WidthTable.find?_eq_some places_pos, ← rows_map_fst, ← widening_zip,
    zip_widening hs, List.map_map, List.mem_map]
  constructor
  · rintro ⟨placed, ⟨item, hm, he⟩, rfl⟩
    cases he
    obtain ⟨start, ho, -⟩ := offsetOf?_of_mem wide hs (List.mem_map_of_mem hm)
    rw [placing, ho, Option.getD_some]
  · intro ho
    obtain ⟨xs, i, ys, hl⟩ := exists_split ((offsetOf?_eq_some wide hs).mp ⟨_, ho⟩)
    refine ⟨placing wide.contains offset (h, i), ⟨(h, i), by simp [hl], ?_⟩, rfl⟩
    rw [Function.comp_apply, rowOf, ho, Option.getD_some]

theorem live_of_isWidened (hs : s.Linked) (hw : (widening s wide).isWidened h) :
    h ∈ s.handles := by
  rw [← offsetOf?_eq_some wide hs]
  cases ho : (widening s wide).offsetOf? h with
  | some offset => exact ⟨offset, rfl⟩
  | none =>
    rw [isWidened, placed?, ho] at hw
    cases hw

/-- Where the next instruction starts. -/
theorem total_snoc (hs : s.Linked) (hl : s.toList = xs ++ (h, i) :: ys)
    (ho : (widening s wide).offsetOf? h = some offset) :
    Width.total (places wide.contains 0 (xs ++ [(h, i)])) =
      offset + i.lengthAt offset + if (widening s wide).isWidened h then 2 else 0 := by
  rw [widening_offsetOf? wide hs hl] at ho
  cases ho
  rw [widening_isWidened wide hs hl, places_append, Width.total_append, Nat.zero_add, places_cons,
    Width.total_cons, Nat.add_assoc]
  rfl

/-- What a layout is to be for a sequence: the instructions one behind the other, the first of them
at the beginning, with jumps in their wide form where two bytes do not reach. -/
structure Consistent (l : Layout) (s : InstructionSeq) : Prop where
  live : ∀ h, (∃ offset, l.offsetOf? h = some offset) ↔ h ∈ s.handles
  empty : s.toList = [] → l.codeLength = 0
  first : ∀ h i ys, s.toList = (h, i) :: ys → l.offsetOf? h = some 0
  next : ∀ xs h i g j ys offset, s.toList = xs ++ (h, i) :: (g, j) :: ys →
    l.offsetOf? h = some offset →
      l.offsetOf? g = some (offset + i.lengthAt offset + if l.isWidened h then 2 else 0)
  last : ∀ xs h i offset, s.toList = xs ++ [(h, i)] → l.offsetOf? h = some offset →
    l.codeLength = offset + i.lengthAt offset + if l.isWidened h then 2 else 0
  widened : ∀ h, l.isWidened h → ∃ kind target, (h, .jump kind target) ∈ s.toList
  near : ∀ h kind target, (h, .jump kind target) ∈ s.toList → ¬ l.isWidened h →
    ∃ offset there, l.offsetOf? h = some offset ∧ l.offsetOf? target = some there ∧
      Near (there - offset)
  located : ∀ offset h, l.handleAt? offset = some h ↔ l.offsetOf? h = some offset

theorem consistent_widening (hs : s.Linked) (hw : WidensJumps s wide)
    (ho : (widening s wide).oversized s = []) : (widening s wide).Consistent s where
  live h := offsetOf?_eq_some wide hs
  empty hl := by
    rw [codeLength, widening_table, WidthTable.ofList_extent, hl]
    rfl
  first h i ys hl := widening_offsetOf? wide hs (hl.trans (List.nil_append _).symm)
  next xs h i g j ys offset hl hoff := by
    have hg := hl.trans (List.append_cons xs (h, i) ((g, j) :: ys))
    rw [widening_offsetOf? wide hs hg, total_snoc hs hl hoff]
  last xs h i offset hl hoff := by
    rw [codeLength, widening_table, WidthTable.ofList_extent, Nat.zero_add, hl,
      total_snoc hs hl hoff]
  widened h hh := by
    obtain ⟨xs, i, ys, hl⟩ := exists_split (live_of_isWidened hs hh)
    rw [widening_isWidened wide hs hl] at hh
    obtain ⟨j, hm, hj⟩ := hw h hh
    cases j with
    | jump kind target => exact ⟨kind, target, hm⟩
    | _ => cases hj
  near h kind target hm hn := by
    obtain ⟨offset, hoff, -⟩ := offsetOf?_of_mem wide hs (List.mem_map_of_mem hm)
    obtain ⟨there, hthere, -⟩ :=
      offsetOf?_of_mem wide hs (hs.targets _ hm target List.mem_cons_self)
    obtain ⟨xs, ys, hl⟩ := List.append_of_mem hm
    rw [widening_isWidened wide hs hl] at hn
    have hnear := (near_of_jump hs ho hm hthere).resolve_left hn
    rw [destination, hoff] at hnear
    exact ⟨offset, there, hoff, hthere, hnear⟩
  located offset h := widening_handleAt? wide hs

/-- Laying out ends, after one pass more than there are jumps at the latest, and what the last pass
gives is consistent. -/
theorem layout_fixpoint (hs : s.Reachable) :
    (∃ passes ≤ s.toList.countP (·.2.isJump) + 1,
      ∀ n l, Passes s ∅ n l ↔ n = passes ∧ l = s.layout) ∧
    s.layout.Consistent s := by
  constructor
  · have hn : narrowJumps s ∅ = s.toList.countP (·.2.isJump) := by
      simp [narrowJumps]
    have hle : narrowJumps s ∅ ≤ s.items.countP (·.2.isJump) := by
      rw [hn, toList, Array.countP_toList]
    obtain ⟨passes, hp, h⟩ := exists_passes hle
    refine ⟨passes, hn ▸ hp, fun n l => ⟨fun h' => h'.unique h, ?_⟩⟩
    rintro ⟨rfl, rfl⟩
    exact h
  · obtain ⟨wide, hl, hw⟩ := exists_widening s
    have ho := oversized_layout s
    rw [hl] at ho ⊢
    exact consistent_widening hs.linked hw ho

def manyCases : List Handle := List.replicate 8200 ⟨0, 0⟩

theorem manyCases_length : manyCases.length = 8200 := List.length_replicate

/-- A return, a switch with many cases, and a jump over the switch, back to the return. -/
def longWayBack : InstructionSeq :=
  ofList [.simple .returnVoid, .tableSwitch ⟨0, 0⟩ 0 manyCases, .jump .goto ⟨0, 0⟩]

theorem longWayBack_reachable : longWayBack.Reachable := by
  refine reachable_ofList (by decide) ?_
  intro item hi t ht
  rw [List.zipIdx_cons, List.zipIdx_cons, List.zipIdx_cons] at hi
  simp only [List.zipIdx_nil, List.mem_cons, List.not_mem_nil, or_false] at hi
  rcases hi with rfl | rfl | rfl
  · cases ht
  · refine ⟨0, by decide, ?_⟩
    rcases List.mem_cons.mp ht with rfl | ht
    · rfl
    · exact List.eq_of_mem_replicate ht
  · exact ⟨0, by decide, List.mem_singleton.mp ht⟩

theorem layout_fixpoint_longWayBack : longWayBack.Reachable ∧
    longWayBack.layout.isWidened ⟨2, 0⟩ ∧ longWayBack.layout.codeLength = 32821 ∧
    ∃ passes ≤ 2, Passes longWayBack ∅ passes longWayBack.layout := by
  obtain ⟨⟨passes, hle, hp⟩, hc⟩ := layout_fixpoint longWayBack_reachable
  have hl : longWayBack.toList = [(⟨0, 0⟩, .simple .returnVoid),
    (⟨1, 0⟩, .tableSwitch ⟨0, 0⟩ 0 manyCases), (⟨2, 0⟩, .jump .goto ⟨0, 0⟩)] := rfl
  have hnarrow : ∀ h ≠ ⟨2, 0⟩, longWayBack.layout.isWidened h = false := by
    intro h hne
    refine Bool.eq_false_iff.mpr fun hw => ?_
    obtain ⟨kind, target, hm⟩ := hc.widened h hw
    rw [hl] at hm
    simp [hne] at hm
  have h0 := hc.first _ _ _ hl
  have h1 := hc.next [] _ _ _ _ _ _ hl h0
  have h2 : longWayBack.layout.offsetOf? ⟨2, 0⟩ = some 32816 := by
    have h2 := hc.next [_] _ _ _ _ _ _ hl h1
    rw [hnarrow _ (by decide), hnarrow _ (by decide)] at h2
    simpa [lengthAt, switchPadding, manyCases_length] using h2
  have hw : longWayBack.layout.isWidened ⟨2, 0⟩ := by
    by_contra hn
    obtain ⟨offset, there, ho, ht, hnear⟩ := hc.near ⟨2, 0⟩ .goto ⟨0, 0⟩ (by simp [hl]) hn
    cases h0.symm.trans ht
    cases h2.symm.trans ho
    exact absurd hnear.1 (by decide)
  refine ⟨longWayBack_reachable, hw, ?_, passes, hle, (hp _ _).mpr ⟨rfl, rfl⟩⟩
  rw [hc.last [_, _] _ _ _ hl h2, hw]
  rfl

end Layout

end Classfile
