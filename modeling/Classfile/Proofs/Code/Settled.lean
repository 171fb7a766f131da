import Classfile.Code.Layout
import Classfile.Proofs.Code.Encoding

/-!
Instructions in the form in which they come back: they take as many bytes as before, and they are
the same bytes as before if each target is as far away as before.
-/
namespace Classfile.Instruction

variable {τ σ : Type} {i : Instruction τ} {offset : Nat} {widened : Bool} {bytes : List UInt8}
  {disp : τ → Except Fault Int} {disp' : σ → Except Fault Int} {g : τ → σ} {t target : τ}

theorem sortCases_map (g : τ → σ) (cases : List (Int32 × τ)) :
    sortCases (cases.map fun c => (c.1, g c.2)) =
      (sortCases cases).map fun c => (c.1, g c.2) := by
  rw [sortCases, sortCases, List.map_mergeSort]
  exact fun _ _ _ _ => rfl

theorem sortCases_pairwise (cases : List (Int32 × τ)) :
    (sortCases cases).Pairwise fun a b => a.1 ≤ b.1 := by
  have h : (sortCases cases).Pairwise fun a b => decide (a.1 ≤ b.1) := by
    apply List.pairwise_mergeSort
    · intro a b c hab hbc
      simp only [decide_eq_true_eq] at hab hbc ⊢
      exact Int32.le_trans hab hbc
    · intro a b
      simpa using Int32.le_total a.1 b.1
  exact h.imp of_decide_eq_true

theorem sortCases_sortCases (cases : List (Int32 × τ)) :
    sortCases (sortCases cases) = sortCases cases :=
  List.mergeSort_of_pairwise ((sortCases_pairwise cases).imp decide_eq_true)

theorem repeatedKey?_map (g : τ → σ) (cases : List (Int32 × τ)) :
    repeatedKey? (cases.map fun c => (c.1, g c.2)) = repeatedKey? cases := by
  induction cases using repeatedKey?.induct with
  | case1 a b rest h => simp [repeatedKey?, h]
  | case2 a b rest h ih =>
    simp only [List.map_cons] at ih
    simp [repeatedKey?, h, ih]
  | case3 cases h =>
    match cases, h with
    | [], _ => rfl
    | [c], _ => rfl
    | a :: b :: rest, h => exact absurd rfl (h a b rest)

theorem mem_targets_settled : t ∈ (i.settled widened).targets ↔ t ∈ i.targets := by
  cases i with
  | jump kind target => cases widened <;> rfl
  | lookupSwitch default cases =>
    simp only [settled, targets, List.mem_cons, List.mem_map, sortCases, List.mem_mergeSort]
  | _ => rfl

theorem isJump_mapTargets : (i.mapTargets g).isJump = i.isJump := by
  cases i <;> rfl

theorem lengthAt_mapTargets : (i.mapTargets g).lengthAt offset = i.lengthAt offset := by
  cases i with
  | tableSwitch default low cases => simp only [mapTargets, lengthAt, List.length_map]
  | lookupSwitch default cases => simp only [mapTargets, lengthAt, List.length_map]
  | _ => rfl

theorem lengthAt_settled (g : τ → σ) (hw : widened → i.isJump) :
    ((i.settled widened).mapTargets g).lengthAt offset =
      i.lengthAt offset + if widened then 2 else 0 := by
  rw [lengthAt_mapTargets]
  cases i with
  | jump kind target => cases widened <;> rfl
  | lookupSwitch default cases =>
    cases widened with
    | false => simp [settled, lengthAt, sortCases]
    | true => cases hw rfl
  | _ =>
    cases widened with
    | false => rfl
    | true => cases hw rfl

theorem narrowJump_congr (offset : Nat) (h : disp' (g target) = disp target) :
    narrowJump offset disp' (g target) = narrowJump offset disp target := by
  rw [narrowJump, narrowJump, h]

theorem wideJumpBytes_congr (offset : Nat) (h : disp' (g target) = disp target) :
    wideJumpBytes offset disp' (g target) = wideJumpBytes offset disp target := by
  rw [wideJumpBytes, wideJumpBytes, h]

theorem wideJumps_congr (offset : Nat) {targets : List τ}
    (hg : ∀ t ∈ targets, disp' (g t) = disp t) :
    (targets.map g).mapM (wideJumpBytes offset disp') =
      targets.mapM (wideJumpBytes offset disp) := by
  rw [List.mapM_map]
  exact Except.mapM_congr fun t ht => wideJumpBytes_congr offset (hg t ht)

theorem lookupPairs_congr (offset : Nat) {cases : List (Int32 × τ)}
    (hg : ∀ c ∈ cases, disp' (g c.2) = disp c.2) :
    (cases.map fun c => (c.1, g c.2)).mapM (fun (key, target) => do
      return Writer.i32 key ++ (← wideJumpBytes offset disp' target)) =
      cases.mapM fun (key, target) => do
        return Writer.i32 key ++ (← wideJumpBytes offset disp target) := by
  rw [List.mapM_map]
  refine Except.mapM_congr fun c hc => ?_
  have hw := wideJumpBytes_congr offset (hg c hc)
  simp only [Function.comp_apply, hw]

/-- An instruction is written, or fails to be, by how far away its targets are. -/
theorem bytes_mapTargets (hg : ∀ t ∈ i.targets, disp' (g t) = disp t) :
    (i.mapTargets g).bytes offset widened disp' = i.bytes offset widened disp := by
  cases i with
  | branch condition target =>
    have hd := narrowJump_congr offset (hg target List.mem_cons_self)
    simp only [mapTargets, bytes, opcode, hd]
  | jump kind target =>
    have hn := narrowJump_congr offset (hg target List.mem_cons_self)
    have hw := wideJumpBytes_congr offset (hg target List.mem_cons_self)
    simp only [mapTargets, bytes, opcode, hn, hw]
  | wideJump kind target =>
    have hd := wideJumpBytes_congr offset (hg target List.mem_cons_self)
    simp only [mapTargets, bytes, opcode, hd]
  | tableSwitch default low cases =>
    have hd := wideJumpBytes_congr offset (hg default List.mem_cons_self)
    have hc := wideJumps_congr offset fun t ht => hg t (List.mem_cons_of_mem _ ht)
    simp only [mapTargets, bytes, opcode, hd, hc, List.isEmpty_map, List.length_map]
  | lookupSwitch default cases =>
    have hd := wideJumpBytes_congr offset (hg default List.mem_cons_self)
    have hsorted : ∀ c ∈ sortCases cases, disp' (g c.2) = disp c.2 := by
      intro c hc
      rw [sortCases, List.mem_mergeSort] at hc
      exact hg c.2 (List.mem_cons_of_mem _ (List.mem_map_of_mem hc))
    have hc := lookupPairs_congr offset hsorted
    simp only [mapTargets, bytes, opcode, sortCases_map, repeatedKey?_map, hd, hc, List.length_map]
  | _ => rfl

/-- The wide jump that a widened jump comes back as is written just as that one was. -/
theorem bytes_settled (hg : ∀ t ∈ i.targets, disp' (g t) = disp t)
    (h : i.bytes offset widened disp = .ok bytes) :
    ((i.settled widened).mapTargets g).bytes offset false disp' = .ok bytes := by
  rw [bytes_mapTargets fun t ht => hg t (mem_targets_settled.mp ht)]
  cases i with
  | jump kind target => cases widened <;> exact h
  | lookupSwitch default cases =>
    simp only [settled, Instruction.bytes, sortCases_sortCases]
    exact h
  | _ => exact h

theorem length_variableBytes {short normal : UInt8} {type : VariableType} {slot : UInt16} :
    (variableBytes short normal type slot).length =
      if slot.toNat < 4 then 1 else if slot.toNat < 256 then 2 else 4 := by
  unfold variableBytes
  split
  · rfl
  split <;> rfl

theorem length_narrowJump (h : narrowJump offset disp target = .ok bytes) : bytes.length = 2 := by
  obtain ⟨d, -, -, rfl⟩ := narrowJump_eq_ok.mp h
  rfl

theorem length_wideJumpBytes (h : wideJumpBytes offset disp target = .ok bytes) :
    bytes.length = 4 := by
  obtain ⟨d, -, -, rfl⟩ := wideJumpBytes_eq_ok.mp h
  rfl

/-- An instruction takes as many bytes as the layout has reserved for it. -/
theorem length_bytes (hw : widened → i.isJump) (h : i.bytes offset widened disp = .ok bytes) :
    bytes.length = i.lengthAt offset + if widened then 2 else 0 := by
  cases widened with
  | true =>
    cases i with
    | jump kind target =>
      obtain ⟨piece, ht, rfl⟩ := Except.map_eq_ok.mp h
      rw [List.length_cons, length_wideJumpBytes ht]
      rfl
    | _ => cases hw rfl
  | false =>
    rw [if_neg Bool.false_ne_true, Nat.add_zero]
    cases i with
    | constant index =>
      simp only [Instruction.bytes, lengthAt] at h ⊢
      split at h <;> cases h <;> rename_i hs
      · rw [if_pos hs]
        rfl
      · rw [if_neg hs]
        rfl
    | load type slot => cases h; exact length_variableBytes
    | store type slot => cases h; exact length_variableBytes
    | increment slot amount =>
      simp only [Instruction.bytes, lengthAt] at h ⊢
      split at h <;> cases h <;> rename_i hs
      · rw [if_pos hs]
        rfl
      · rw [if_neg hs]
        rfl
    | ret slot =>
      simp only [Instruction.bytes, lengthAt] at h ⊢
      split at h <;> cases h <;> rename_i hs
      · rw [if_pos hs]
        rfl
      · rw [if_neg hs]
        rfl
    | branch condition target =>
      obtain ⟨piece, ht, rfl⟩ := Except.map_eq_ok.mp h
      rw [List.length_cons, length_narrowJump ht]
      rfl
    | jump kind target =>
      obtain ⟨piece, ht, rfl⟩ := Except.map_eq_ok.mp h
      rw [List.length_cons, length_narrowJump ht]
      rfl
    | wideJump kind target =>
      obtain ⟨piece, ht, rfl⟩ := Except.map_eq_ok.mp h
      rw [List.length_cons, length_wideJumpBytes ht]
      rfl
    | tableSwitch default low cases =>
      obtain ⟨-, -, first, pieces, hd, hp, rfl⟩ := tableSwitch_bytes.mp h
      have hl := Except.length_flatten hp fun _ _ => length_wideJumpBytes
      simp only [List.length_cons, List.length_append, List.length_replicate, hl,
        length_wideJumpBytes hd, Writer.i32, Writer.u32, BigEndian.length_pack, lengthAt]
      omega
    | lookupSwitch default cases =>
      obtain ⟨-, first, pairs, hd, hp, rfl⟩ := lookupSwitch_bytes.mp h
      have hl : pairs.flatten.length = (sortCases cases).length * 8 := by
        refine Except.length_flatten hp fun c piece hc => ?_
        obtain ⟨wide, hw, rfl⟩ := Except.map_eq_ok.mp hc
        rw [List.length_append, length_wideJumpBytes hw]
        rfl
      simp only [List.length_cons, List.length_append, List.length_replicate, hl,
        length_wideJumpBytes hd, BigEndian.length_pack, lengthAt, sortCases,
        List.length_mergeSort]
      omega
    | _ => cases h; rfl

end Classfile.Instruction
