import Classfile.Proofs.Code.Passes
import Classfile.Proofs.Code.Starts

/-!
Widening no more than is needed. Only the length of a switch depends on where it stands. Without
switches, widening more jumps moves all instructions apart, so that a jump that is out of reach
stays so, whatever else is widened. The jumps that the layout widens are those that must be.
-/
namespace Classfile

open Instruction InstructionSeq

namespace Instruction

variable {τ : Type} {i : Instruction τ} {n m : Nat}

/-- Is this a table switch or a lookup switch? -/
def isSwitch : Instruction τ → Bool
  | tableSwitch .. | lookupSwitch .. => true
  | _ => false

theorem lengthAt_eq (hi : i.isSwitch = false) (n m : Nat) : i.lengthAt n = i.lengthAt m := by
  cases i with
  | tableSwitch | lookupSwitch => cases hi
  | _ => rfl

end Instruction

namespace InstructionSeq

variable {s : InstructionSeq} {wide more : Std.HashSet Handle} {h target : Handle} {n m : Nat}

def SwitchFree (s : InstructionSeq) : Prop := ∀ item ∈ s.toList, item.2.isSwitch = false

/-- Two instructions are no nearer to each other when more jumps are widened. -/
theorem startAt_apart (hf : s.SwitchFree) (hw : ∀ h ∈ wide, h ∈ more) (hn : n ≤ m)
    (hm : m ≤ s.toList.length) :
    s.startAt wide m + s.startAt more n ≤ s.startAt more m + s.startAt wide n := by
  induction m, hn using Nat.le_induction with
  | base => exact Nat.le_of_eq (Nat.add_comm _ _)
  | succ m hn ih =>
    obtain ⟨⟨h, i⟩, hi⟩ : ∃ item, s.toList[m]? = some item := ⟨_, List.getElem?_eq_getElem hm⟩
    have hi' : i.isSwitch = false := hf (h, i) (List.mem_of_getElem? hi)
    have hlen := lengthAt_eq hi' (s.startAt wide m) (s.startAt more m)
    have hextra : (if wide.contains h then 2 else 0) ≤ if more.contains h then 2 else 0 := by
      split
      · rename_i hc
        rw [if_pos (Std.HashSet.contains_iff_mem.mpr (hw h (Std.HashSet.contains_iff_mem.mp hc)))]
      · exact Nat.zero_le _
    have hle := ih (Nat.le_of_succ_le hm)
    rw [startAt_succ hi, startAt_succ hi, hlen]
    omega

end InstructionSeq

namespace Layout

variable {s : InstructionSeq} {wide more : Std.HashSet Handle} {h target : Handle} {n : Nat}

theorem destination_of_position? (hs : s.Linked) (hp : s.position? h = some n) :
    (widening s wide).destination h = s.startAt wide n := by
  rw [destination, offsetOf?_of_position? hs hp, Option.getD_some]

/-- What is in reach when more jumps are widened was in reach before. -/
theorem near_of_near (hs : s.Linked) (hf : s.SwitchFree) (hw : ∀ h ∈ wide, h ∈ more)
    (hh : h ∈ s.handles) (ht : target ∈ s.handles)
    (hn : Near ((widening s more).destination target - (widening s more).destination h)) :
    Near ((widening s wide).destination target - (widening s wide).destination h) := by
  obtain ⟨n, hp⟩ := exists_position? hs ((hs.live h).mpr hh)
  obtain ⟨m, hq⟩ := exists_position? hs ((hs.live target).mpr ht)
  have hnl := (take_of_position? hp).1
  have hml := (take_of_position? hq).1
  rw [destination_of_position? hs hp, destination_of_position? hs hq] at hn ⊢
  unfold Near at hn ⊢
  rcases Nat.le_total n m with hle | hle
  · -- The jump goes forward.
    have hwide : s.startAt wide n ≤ s.startAt wide m := startAt_le hle (Nat.le_of_lt hml)
    have hapart := startAt_apart hf hw hle (Nat.le_of_lt hml)
    omega
  · have hwide : s.startAt wide m ≤ s.startAt wide n := startAt_le hle (Nat.le_of_lt hnl)
    have hapart := startAt_apart hf hw hle (Nat.le_of_lt hnl)
    omega

/-- When the jumps in `wide` are widened, every other jump is in reach of its target. -/
def Suffices (s : InstructionSeq) (wide : Std.HashSet Handle) : Prop :=
  ∀ h kind target, (h, .jump kind target) ∈ s.toList → h ∉ wide →
    Near ((widening s wide).destination target - (widening s wide).destination h)

/-- The set holds no jump that could reach its target, although all of the set is widened, and none
that a set that suffices could do without. -/
structure Forced (s : InstructionSeq) (wide : Std.HashSet Handle) : Prop where
  far : ∀ h ∈ wide, ∃ kind target, (h, .jump kind target) ∈ s.toList ∧
    ¬ Near ((widening s wide).destination target - (widening s wide).destination h)
  least : ∀ enough, Suffices s enough → ∀ h ∈ wide, h ∈ enough

theorem forced_empty : Forced s ∅ :=
  ⟨fun _ hh => absurd hh Std.HashSet.not_mem_empty,
    fun _ _ _ hh => absurd hh Std.HashSet.not_mem_empty⟩

/-- A jump that is out of reach in one round is out of reach in all later ones. -/
theorem forced_insertMany (hs : s.Linked) (hf : s.SwitchFree) (hw : Forced s wide) :
    Forced s (wide.insertMany ((widening s wide).oversized s)) := by
  have hmem : ∀ {h}, h ∈ wide.insertMany ((widening s wide).oversized s) ↔
      h ∈ wide ∨ h ∈ (widening s wide).oversized s := by
    intro h
    rw [Std.HashSet.mem_insertMany_list, List.contains_iff_mem]
  constructor
  · intro h hh
    obtain ⟨kind, target, hm, hfar⟩ : ∃ kind target, (h, .jump kind target) ∈ s.toList ∧
        ¬ Near ((widening s wide).destination target - (widening s wide).destination h) := by
      rcases hmem.mp hh with hh | hh
      · exact hw.far h hh
      · obtain ⟨kind, target, hm, -, hfar⟩ := (mem_oversized hs).mp hh
        exact ⟨kind, target, hm, hfar⟩
    refine ⟨kind, target, hm, fun hn => hfar ?_⟩
    exact near_of_near hs hf (fun g hg => hmem.mpr (.inl hg)) (List.mem_map_of_mem hm)
      (hs.targets _ hm target List.mem_cons_self) hn
  · intro enough he h hh
    rcases hmem.mp hh with hh | hh
    · exact hw.least enough he h hh
    · obtain ⟨kind, target, hm, -, hfar⟩ := (mem_oversized hs).mp hh
      by_contra hn
      exact hfar (near_of_near hs hf (hw.least enough he) (List.mem_map_of_mem hm)
        (hs.targets _ hm target List.mem_cons_self) (he h kind target hm hn))

/-- Without switches, the jumps that the layout widens are the least set that suffices, and none of
them could reach its target in two bytes. -/
theorem widened_least (hs : s.Reachable) (hf : s.SwitchFree) :
    ∃ wide, s.layout = widening s wide ∧ (∀ h, h ∈ wide ↔ s.layout.isWidened h) ∧
      Suffices s wide ∧
      (∀ h ∈ wide, ∃ kind target, (h, .jump kind target) ∈ s.toList ∧
        ¬ Near (s.distance h target)) ∧
      ∀ enough, Suffices s enough → ∀ h ∈ wide, h ∈ enough := by
  have hlink := hs.linked
  obtain ⟨wide, hl, hforced⟩ : ∃ wide, s.layout = widening s wide ∧ Forced s wide :=
    settle_invariant (fun _ => forced_insertMany hlink hf) forced_empty
  have hnone : (widening s wide).oversized s = [] := hl ▸ oversized_layout s
  refine ⟨wide, hl, fun h => ?_, fun h kind target hm hn => ?_, ?_, hforced.least⟩
  · rw [hl]
    constructor
    · intro hh
      obtain ⟨kind, target, hm, -⟩ := hforced.far h hh
      obtain ⟨xs, ys, hsplit⟩ := List.append_of_mem hm
      rwa [widening_isWidened wide hlink hsplit]
    · intro hh
      obtain ⟨xs, i, ys, hsplit⟩ := exists_split (live_of_isWidened hlink hh)
      rwa [widening_isWidened wide hlink hsplit] at hh
  · by_contra hfar
    have hm := (mem_oversized hlink).mpr ⟨kind, target, hm, hn, hfar⟩
    rw [hnone] at hm
    cases hm
  · unfold InstructionSeq.distance
    rw [hl]
    exact hforced.far

/-- A return, `count` instructions of six bytes, and a jump back to the return. -/
def farBack (count : Nat) : InstructionSeq :=
  ofList (.simple .returnVoid :: (List.replicate count (.increment 0 1000) ++
    [.jump .goto (handleOf 0)]))

theorem farBack_reachable {count : Nat} (hc : count + 2 ≤ UInt32.size) :
    (farBack count).Reachable := by
  refine reachable_ofList ?_ fun item hi t ht => ?_
  · rwa [List.length_cons, List.length_append, List.length_replicate]
  · rw [List.zipIdx_cons, List.mem_cons] at hi
    rcases hi with rfl | hi
    · cases ht
    · have hpos : 1 ≤ item.2 := List.le_snd_of_mem_zipIdx hi
      have hm := List.fst_mem_of_mem_zipIdx hi
      rw [List.mem_append, List.mem_replicate, List.mem_singleton] at hm
      rcases hm with ⟨-, he⟩ | he <;> rw [he] at ht
      · cases ht
      · exact ⟨0, hpos, List.mem_singleton.mp ht⟩

theorem farBack_getElem? {count k : Nat} (hk : k < count) :
    (farBack count).toList[k + 1]? = some (handleOf (k + 1), .increment 0 1000) := by
  rw [farBack, ofList_getElem?, List.getElem?_cons_succ, List.getElem?_append_left (by simpa),
    List.getElem?_replicate_of_lt hk]
  rfl

theorem farBack_getElem?_last (count : Nat) :
    (farBack count).toList[count + 1]? = some (handleOf (count + 1), .jump .goto (handleOf 0)) := by
  rw [farBack, ofList_getElem?, List.getElem?_cons_succ, List.getElem?_append_right (by simp)]
  simp

theorem farBack_switchFree {count : Nat} : (farBack count).SwitchFree := by
  rintro ⟨h, i⟩ hm
  obtain ⟨⟨j, n⟩, hj, he⟩ := List.mem_map.mp hm
  cases he
  have hj := List.fst_mem_of_mem_zipIdx hj
  rw [List.mem_cons, List.mem_append, List.mem_replicate, List.mem_singleton] at hj
  rcases hj with rfl | ⟨-, rfl⟩ | rfl <;> rfl

theorem le_startAt_farBack {count k : Nat} (wide : Std.HashSet Handle) (hk : k ≤ count) :
    1 + 6 * k ≤ (farBack count).startAt wide (k + 1) := by
  induction k with
  | zero =>
    have h0 : (farBack count).toList[0]? = some (handleOf 0, .simple .returnVoid) := rfl
    rw [startAt_succ h0]
    exact Nat.le_add_right _ _
  | succ k ih =>
    have hle := ih (Nat.le_of_succ_le hk)
    rw [startAt_succ (farBack_getElem? hk)]
    simp only [lengthAt]
    rw [if_neg (by decide)]
    omega

theorem widened_least_farBack : (farBack 5462).Reachable ∧ (farBack 5462).SwitchFree ∧
    (farBack 5462).layout.isWidened (handleOf 5463) := by
  have hr : (farBack 5462).Reachable := farBack_reachable (by decide)
  obtain ⟨wide, -, hwide, hsuff, -⟩ := widened_least hr farBack_switchFree
  refine ⟨hr, farBack_switchFree, (hwide _).mp ?_⟩
  by_contra hn
  have hlast := farBack_getElem?_last 5462
  have hnear := hsuff _ _ _ (List.mem_of_getElem? hlast) hn
  have hfirst : (farBack 5462).toList[0]? = some (handleOf 0, .simple .returnVoid) := rfl
  rw [destination_of_position? hr.linked (position?_of_getElem? hr.linked hlast),
    destination_of_position? hr.linked (position?_of_getElem? hr.linked hfirst),
    startAt_zero] at hnear
  have hle := le_startAt_farBack wide (Nat.le_refl 5462)
  unfold Near at hnear
  omega

end Layout

end Classfile
