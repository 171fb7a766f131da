import Classfile.Proofs.Code.RoundTrip

/-!
Code is laid out with every handle at hand. Whatever else may be wrong with it, it is never that a
target has no place, if every target is one of the instructions.
-/
namespace Classfile

variable {α β τ : Type} {x : Except Fault α}

/-- If the computation fails, then not because a handle is stale. -/
def Steady (x : Except Fault α) : Prop := ∀ h, x ≠ .error (.staleHandle h)

theorem steady_ok (v : α) : Steady (.ok v : Except Fault α) := fun _ he => by cases he

theorem Steady.bind {f : α → Except Fault β} (hx : Steady x) (hf : ∀ v, Steady (f v)) :
    Steady (x >>= f) := by
  intro h he
  cases x with
  | ok v => exact hf v h he
  | error fault =>
    cases he
    exact hx h rfl

theorem steady_mapM {f : α → Except Fault β} {xs : List α} (hf : ∀ x ∈ xs, Steady (f x)) :
    Steady (xs.mapM f) := by
  induction xs with
  | nil => exact steady_ok []
  | cons x xs ih =>
    rw [List.mapM_cons]
    refine (hf x List.mem_cons_self).bind fun y => ?_
    exact (ih fun z hz => hf z (List.mem_cons_of_mem _ hz)).bind fun ys => steady_ok (y :: ys)

namespace Instruction

variable {disp : τ → Except Fault Int} {offset : Nat} {target : τ}

theorem steady_narrowJump (hd : Steady (disp target)) : Steady (narrowJump offset disp target) := by
  refine hd.bind fun d => ?_
  split
  · exact steady_ok _
  · exact fun _ he => by cases he

theorem steady_wideJumpBytes (hd : Steady (disp target)) :
    Steady (wideJumpBytes offset disp target) := by
  refine hd.bind fun d => ?_
  split
  · exact steady_ok _
  · exact fun _ he => by cases he

/-- Only the distances of targets can be missing. -/
theorem steady_bytes {i : Instruction τ} {widened : Bool}
    (hd : ∀ t ∈ i.targets, Steady (disp t)) : Steady (i.bytes offset widened disp) := by
  cases i with
  | branch condition target =>
    exact (steady_narrowJump (hd target List.mem_cons_self)).bind fun _ => steady_ok _
  | jump kind target =>
    have ht := hd target List.mem_cons_self
    simp only [bytes]
    split
    · exact (steady_wideJumpBytes ht).bind fun _ => steady_ok _
    · exact (steady_narrowJump ht).bind fun _ => steady_ok _
  | wideJump kind target =>
    exact (steady_wideJumpBytes (hd target List.mem_cons_self)).bind fun _ => steady_ok _
  | tableSwitch default low cases =>
    have hdefault : Steady (wideJumpBytes offset disp default) :=
      steady_wideJumpBytes (hd default List.mem_cons_self)
    have hcases : Steady (cases.mapM (wideJumpBytes offset disp)) :=
      steady_mapM fun t ht => steady_wideJumpBytes (hd t (List.mem_cons_of_mem _ ht))
    simp only [bytes]
    split
    · exact fun _ he => by cases he
    · refine hdefault.bind fun first => ?_
      split
      · exact fun _ he => by cases he
      · exact hcases.bind fun pieces => steady_ok _
  | lookupSwitch default cases =>
    have hdefault : Steady (wideJumpBytes offset disp default) :=
      steady_wideJumpBytes (hd default List.mem_cons_self)
    have hcases : ∀ c ∈ sortCases cases, Steady (wideJumpBytes offset disp c.2) := by
      intro c hc
      rw [sortCases, List.mem_mergeSort] at hc
      exact steady_wideJumpBytes (hd c.2 (List.mem_cons_of_mem _ (List.mem_map_of_mem hc)))
    simp only [bytes]
    split
    · exact fun _ he => by cases he
    · refine hdefault.bind fun first =>
        Steady.bind (steady_mapM fun c hc => ?_) fun _ => steady_ok _
      exact (hcases c hc).bind fun _ => steady_ok _
  | constant index =>
    simp only [bytes]
    split <;> exact steady_ok _
  | increment slot amount =>
    simp only [bytes]
    split <;> exact steady_ok _
  | ret slot =>
    simp only [bytes]
    split <;> exact steady_ok _
  | _ => exact steady_ok _

end Instruction

namespace Layout

variable {s : InstructionSeq} {wide : Handle → Bool} {l : Layout} {h : Handle}
  {items : List (Handle × Instruction Handle)}

theorem extend_offsetOf? (hh : h ∈ items.map (·.1) ∨ (l.offsetOf? h).isSome) :
    ((items.foldl (extend wide) l).offsetOf? h).isSome := by
  induction items generalizing l with
  | nil => simpa using hh
  | cons item items ih =>
    rw [List.map_cons, List.mem_cons, or_assoc, or_left_comm] at hh
    refine ih (hh.imp_right fun hh => ?_)
    rw [offsetOf?, extend, Std.HashMap.getElem?_insert]
    split
    · rfl
    · rename_i hne
      exact hh.resolve_left fun he => hne (by simp [he])

theorem widening_offsetOf?_isSome (wide : Std.HashSet Handle) (hh : h ∈ s.handles) :
    ((widening s wide).offsetOf? h).isSome := by
  rw [widening_eq]
  exact extend_offsetOf? (.inl hh)

end Layout

theorem InstructionSeq.steady_encode {s : InstructionSeq}
    (ht : ∀ item ∈ s.toList, ∀ t ∈ item.2.targets, t ∈ s.handles) : Steady s.encode := by
  obtain ⟨wide, hl, -⟩ := Layout.exists_widening s
  rw [encode, encodeIn, hl, Layout.widening_zip]
  split
  · exact fun _ he => by cases he
  · refine Steady.bind (steady_mapM fun row hr => Instruction.steady_bytes fun t hx => ?_)
      fun pieces => steady_ok _
    obtain ⟨there, ho⟩ := Option.isSome_iff_exists.mp
      (Layout.widening_offsetOf?_isSome wide (ht _ (Layout.mem_rows hr).1 t hx))
    rw [ho]
    exact steady_ok _

end Classfile
