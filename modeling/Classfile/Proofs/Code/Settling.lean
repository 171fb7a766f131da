import Classfile.Proofs.Code.Layout

/-!
Widening ends. Every round that finds a jump out of reach widens one that was narrow before, and no
jump is narrowed again, so there are rounds enough to leave no jump out of reach.
-/
namespace Classfile.Layout

variable {s : InstructionSeq} {wide : Std.HashSet Handle} {h : Handle} {n : Nat}

theorem settle_of_oversized (n : Nat) (h : (widening s wide).oversized s = []) :
    settle s n wide = widening s wide := by
  cases n with
  | zero => rfl
  | succ n => rw [settle, h]

theorem settle_of_ne_nil (n : Nat) (h : (widening s wide).oversized s ≠ []) :
    settle s (n + 1) wide = settle s n (wide.insertMany ((widening s wide).oversized s)) := by
  rw [settle]
  split
  · contradiction
  · rfl

/-- How many jumps have not been widened. -/
def narrowJumps (s : InstructionSeq) (wide : Std.HashSet Handle) : Nat :=
  s.toList.countP fun item => item.2.isJump && !wide.contains item.1

theorem not_mem_of_oversized (hh : h ∈ (widening s wide).oversized s) : h ∉ wide := by
  rw [oversized, widening_zip] at hh
  obtain ⟨⟨⟨offset, placed⟩, i⟩, hr, hp⟩ := List.mem_filterMap.mp hh
  simp only [Option.ite_none_right_eq_some, Option.some.injEq] at hp
  obtain ⟨ho, rfl⟩ := hp
  have hplaced : placed.widened = wide.contains placed.handle :=
    congrArg Placed.widened (mem_rows hr).2
  intro hm
  rw [← Std.HashSet.contains_iff_mem, ← hplaced] at hm
  cases i with
  | jump kind target =>
    simp only [isOversized, hm] at ho
    split at ho <;> cases ho
  | _ => cases ho

theorem countP_lt {α : Type} {p q : α → Bool} {xs : List α} {x : α} (hpq : ∀ x, p x → q x)
    (hx : x ∈ xs) (hp : ¬ p x) (hq : q x) : xs.countP p < xs.countP q := by
  obtain ⟨before, after, rfl⟩ := List.append_of_mem hx
  have hb := List.countP_mono_left (l := before) fun x _ => hpq x
  have ha := List.countP_mono_left (l := after) fun x _ => hpq x
  rw [List.countP_append, List.countP_append, List.countP_cons_of_neg hp,
    List.countP_cons_of_pos hq]
  omega

theorem narrowJumps_lt (hh : h ∈ (widening s wide).oversized s) :
    narrowJumps s (wide.insertMany ((widening s wide).oversized s)) < narrowJumps s wide := by
  obtain ⟨i, hm, hi⟩ := oversized_jump hh
  have hn := not_mem_of_oversized hh
  refine countP_lt ?_ hm ?_ ?_
  · intro item
    simp only [Bool.and_eq_true, Bool.not_eq_true', Std.HashSet.contains_insertMany_list,
      Bool.or_eq_false_iff]
    intro ⟨hj, hw, _⟩
    exact ⟨hj, hw⟩
  · simp [hh]
  · simp [hi, hn]

/-- With as many rounds as there are narrow jumps, settling leaves none out of reach. -/
theorem oversized_settle (hn : narrowJumps s wide ≤ n) : (settle s n wide).oversized s = [] := by
  induction n generalizing wide with
  | zero =>
    rw [settle]
    refine List.eq_nil_iff_forall_not_mem.mpr fun h hh => ?_
    have hlt := narrowJumps_lt hh
    omega
  | succ n ih =>
    rw [settle]
    split
    · assumption
    · rename_i handles hne
      obtain ⟨h, hh⟩ := List.exists_mem_of_ne_nil _ hne
      have hlt := narrowJumps_lt hh
      exact ih (by omega)

theorem oversized_layout (s : InstructionSeq) : s.layout.oversized s = [] := by
  refine oversized_settle ?_
  rw [narrowJumps, ← Array.countP_toList]
  exact List.countP_mono_left fun item _ hj => (Bool.and_eq_true_iff.mp hj).1

end Classfile.Layout
