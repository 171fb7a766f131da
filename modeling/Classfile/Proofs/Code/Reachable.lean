import Classfile.Proofs.Code.Sequence
import Mathlib.Data.List.Induction

/-! Sequences that come from reading code or from editing, and what holds for all of them. -/
namespace Classfile

namespace Instruction

variable {τ σ ρ ε : Type} {i : Instruction τ} {j : Instruction σ}

theorem resolve_targets {f : τ → Except ε σ} (h : i.resolve f = .ok j) :
    ∀ t ∈ j.targets, ∃ u ∈ i.targets, f u = .ok t := by
  intro t ht
  cases i with
  | branch _ target | jump _ target | wideJump _ target =>
    obtain ⟨u, hu, rfl⟩ := Except.map_eq_ok.mp h
    cases List.mem_singleton.mp ht
    exact ⟨target, List.mem_singleton_self _, hu⟩
  | tableSwitch default low cases =>
    obtain ⟨u, hu, h⟩ := Except.bind_eq_ok.mp h
    obtain ⟨us, hus, rfl⟩ := Except.map_eq_ok.mp h
    rcases List.mem_cons.mp ht with rfl | ht
    · exact ⟨default, List.mem_cons_self, hu⟩
    · obtain ⟨v, hv, he⟩ := Except.exists_of_mem_mapM hus ht
      exact ⟨v, List.mem_cons_of_mem _ hv, he⟩
  | lookupSwitch default cases =>
    obtain ⟨u, hu, h⟩ := Except.bind_eq_ok.mp h
    obtain ⟨us, hus, rfl⟩ := Except.map_eq_ok.mp h
    rcases List.mem_cons.mp ht with rfl | ht
    · exact ⟨default, List.mem_cons_self, hu⟩
    · obtain ⟨pair, hp, rfl⟩ := List.mem_map.mp ht
      obtain ⟨v, hv, he⟩ := Except.exists_of_mem_mapM hus hp
      obtain ⟨w, hw, rfl⟩ := Except.map_eq_ok.mp he
      exact ⟨v.2, List.mem_cons_of_mem _ (List.mem_map_of_mem hv), hw⟩
  | _ => cases h; cases ht

theorem resolve_mapTargets {p : τ → ρ} {f : ρ → Except ε σ} {q : τ → σ}
    (h : ∀ t ∈ i.targets, f (p t) = .ok (q t)) :
    (i.mapTargets p).resolve f = .ok (i.mapTargets q) := by
  cases i with
  | branch _ target | jump _ target | wideJump _ target =>
    have ht := h target (by simp [targets])
    simp [mapTargets, resolve, ht]
  | tableSwitch default low cases =>
    have hd := h default (by simp [targets])
    have hc : (cases.map p).mapM f = .ok (cases.map q) := by
      rw [List.mapM_map]
      exact Except.mapM_eq_ok_map fun t ht => h t (by simp [targets, ht])
    exact Except.bind_eq_ok.mpr ⟨_, hd, Except.map_eq_ok.mpr ⟨_, hc, rfl⟩⟩
  | lookupSwitch default cases =>
    have hd := h default (by simp [targets])
    have hc : (cases.map fun c => (c.1, p c.2)).mapM (fun c => do return (c.1, ← f c.2)) =
        .ok (cases.map fun c => (c.1, q c.2)) := by
      rw [List.mapM_map]
      refine Except.mapM_eq_ok_map fun c hc => ?_
      have ht := h c.2 (List.mem_cons_of_mem _ (List.mem_map_of_mem hc))
      simp [ht]
    exact Except.bind_eq_ok.mpr ⟨_, hd, Except.map_eq_ok.mpr ⟨_, hc, rfl⟩⟩
  | _ => rfl

end Instruction

namespace InstructionSeq

variable {s t : InstructionSeq} {instructions : List (Instruction Handle)}

theorem ofList_toList : (ofList instructions).toList =
    instructions.zipIdx.map fun (i, position) => (handleOf position, i) := rfl

theorem ofList_getElem? {n : Nat} : (ofList instructions).toList[n]? =
    instructions[n]?.map fun i => (handleOf n, i) := by
  rw [ofList_toList, List.getElem?_map, List.getElem?_zipIdx, Option.map_map, Nat.zero_add]
  rfl

theorem ofList_handles :
    (ofList instructions).handles = (List.range instructions.length).map handleOf := by
  rw [handles, ofList_toList, List.map_map, List.range_eq_range', ← List.zipIdx_map_snd 0,
    List.map_map]
  rfl

theorem handleOf_inj {n m : Nat} (hn : n < UInt32.size) (hm : m < UInt32.size)
    (h : handleOf n = handleOf m) : n = m := by
  have hi := congrArg (fun h => h.index.toNat) h
  rwa [handleOf, handleOf, UInt32.toNat_ofNat_of_lt' hn, UInt32.toNat_ofNat_of_lt' hm] at hi

theorem linked_ofList (hc : instructions.length ≤ UInt32.size)
    (ht : ∀ i ∈ instructions, ∀ t ∈ i.targets, ∃ n < instructions.length, t = handleOf n) :
    (ofList instructions).Linked where
  capacity := by simpa [ofList] using hc
  nodup := by
    rw [ofList_handles]
    refine List.Nodup.map_on ?_ List.nodup_range
    intro n hn m hm h
    rw [List.mem_range] at hn hm
    exact handleOf_inj (by omega) (by omega) h
  live := by
    rintro ⟨index, generation⟩
    rw [ofList_handles, contains_iff]
    simp only [ofList, Array.getElem?_replicate, List.mem_map, List.mem_range]
    constructor
    · intro h
      split at h
      · cases h
        exact ⟨index.toNat, by assumption, by simp [handleOf]⟩
      · cases h
    · rintro ⟨n, hn, h⟩
      cases h
      rw [UInt32.toNat_ofNat_of_lt' (by omega), if_pos hn]
  free_dead := by simp [ofList]
  free_nodup := List.nodup_nil
  targets := by
    intro item hi t hx
    rw [ofList_toList] at hi
    obtain ⟨⟨i, n⟩, hm, rfl⟩ := List.mem_map.mp hi
    obtain ⟨m, hm, rfl⟩ := ht i (List.fst_mem_of_mem_zipIdx hm) t hx
    rw [ofList_handles]
    exact List.mem_map_of_mem (List.mem_range.mpr hm)

end InstructionSeq

variable {pool : ConstantPool} {code : List UInt8} {d : DecodedCode}

/-- Where each instruction starts that was read, with the handle that it gets. -/
def startsOf (items : List (Nat × Instruction Int)) : Array (Nat × Handle) :=
  (items.zipIdx.map fun (item, position) =>
    (item.1, InstructionSeq.handleOf position)).toArray

/-- The handle of a target that was read as an offset. -/
def resolveTarget (starts : Array (Nat × Handle)) (start : Nat) (target : Int) :
    Except Fault Handle :=
  match if target < 0 then none else handleAtOffset? starts target.toNat with
  | some h => .ok h
  | none => .error (.malformedCode start (.offInstruction target))

theorem decodeCode_eq_ok : decodeCode pool code = .ok d ↔
    ∃ items instructions, Instruction.readAll pool code = .ok items ∧
      items.mapM (fun (start, i) => i.resolve (resolveTarget (startsOf items) start)) =
        .ok instructions ∧
      d = ⟨InstructionSeq.ofList instructions, startsOf items⟩ := by
  constructor
  · intro h
    obtain ⟨items, hi, h⟩ := Except.bind_eq_ok.mp h
    obtain ⟨instructions, hr, rfl⟩ := Except.map_eq_ok.mp h
    exact ⟨items, instructions, hi, hr, rfl⟩
  · rintro ⟨items, instructions, hi, hr, rfl⟩
    exact Except.bind_eq_ok.mpr ⟨items, hi, Except.map_eq_ok.mpr ⟨instructions, hr, rfl⟩⟩

theorem mem_of_handleAtOffset? {starts : Array (Nat × Handle)} {offset : Nat} {h : Handle}
    (hf : handleAtOffset? starts offset = some h) : (offset, h) ∈ starts.toList := by
  unfold handleAtOffset? at hf
  split at hf
  · rename_i start g hg
    split at hf
    · rename_i he
      cases hf
      rw [← he]
      exact List.mem_of_getElem? ((Array.getElem?_toList ..).trans hg)
    · cases hf
  · cases hf

/-- A target is an offset at which an instruction was read. -/
theorem mem_of_resolveTarget {starts : Array (Nat × Handle)} {start : Nat} {target : Int}
    {h : Handle} (ht : resolveTarget starts start target = .ok h) :
    (target.toNat, h) ∈ starts.toList ∧ 0 ≤ target := by
  unfold resolveTarget at ht
  split at ht
  · rename_i g hg
    cases ht
    split at hg
    · cases hg
    · exact ⟨mem_of_handleAtOffset? hg, Int.not_lt.mp ‹_›⟩
  · cases ht

theorem resolveTarget_eq_ok {items : List (Nat × Instruction Int)} {start : Nat} {target : Int}
    {h : Handle} (ht : resolveTarget (startsOf items) start target = .ok h) :
    ∃ n < items.length, h = InstructionSeq.handleOf n := by
  obtain ⟨⟨item, n⟩, hi, he⟩ := List.mem_map.mp (mem_of_resolveTarget ht).1
  exact ⟨n, (List.mem_zipIdx' hi).1, (congrArg Prod.snd he).symm⟩

/-- What was read goes to positions. -/
theorem targets_decodeCode (h : decodeCode pool code = .ok d) : ∃ instructions,
    d.instructions = InstructionSeq.ofList instructions ∧ ∀ i ∈ instructions, ∀ t ∈ i.targets,
      ∃ n < instructions.length, t = InstructionSeq.handleOf n := by
  obtain ⟨items, instructions, -, hr, rfl⟩ := decodeCode_eq_ok.mp h
  refine ⟨instructions, rfl, fun i hi t ht => ?_⟩
  obtain ⟨item, -, he⟩ := Except.exists_of_mem_mapM hr hi
  obtain ⟨u, -, hu⟩ := Instruction.resolve_targets he t ht
  rw [Except.mapM_length hr]
  exact resolveTarget_eq_ok hu

theorem linked_decodeCode (h : decodeCode pool code = .ok d)
    (hc : d.instructions.slots.size ≤ UInt32.size) : d.instructions.Linked := by
  obtain ⟨instructions, hd, ht⟩ := targets_decodeCode h
  rw [hd] at hc ⊢
  exact InstructionSeq.linked_ofList (by simpa [InstructionSeq.ofList] using hc) ht

namespace InstructionSeq

/-- The sequences that a program can get hold of. A handle has 32 bits for its slot, so there are
never more slots than that. -/
inductive Reachable : InstructionSeq → Prop
  | empty : Reachable empty
  | decoded {pool : ConstantPool} {code : List UInt8} {d : DecodedCode}
      (h : decodeCode pool code = .ok d) (hc : d.instructions.slots.size ≤ UInt32.size) :
      Reachable d.instructions
  | edit {s t : InstructionSeq} {e : Edit} (hs : Reachable s) (he : s.edit e = .ok t)
      (hc : t.slots.size ≤ UInt32.size) : Reachable t

theorem Reachable.linked {s : InstructionSeq} (hs : s.Reachable) : s.Linked := by
  induction hs with
  | empty => exact linked_empty
  | decoded h hc => exact linked_decodeCode h hc
  | edit _ he hc ih => exact linked_edit ih he hc

variable {i : Instruction Handle}

theorem contains_ofList {n : Nat} (hn : n < instructions.length)
    (hc : instructions.length ≤ UInt32.size) : (ofList instructions).contains (handleOf n) := by
  have hi : (handleOf n).index.toNat = n := UInt32.toNat_ofNat_of_lt' (Nat.lt_of_lt_of_le hn hc)
  rw [contains, hi]
  simp [ofList, hn, handleOf]

theorem place_ofList : ((ofList instructions).place (ofList instructions).size i).2 =
    ofList (instructions ++ [i]) := by
  have hi : ∀ item, (instructions.zipIdx.map fun (i, n) => (handleOf n, i)).insertIdx
      instructions.length item =
        (instructions.zipIdx.map fun (i, n) => (handleOf n, i)) ++ [item] := by
    intro item
    simpa using List.insertIdx_length_self (x := item)
      (l := instructions.zipIdx.map fun (i, n) => (handleOf n, i))
  simp [place, ofList, size, freshHandle, List.zipIdx_append, Array.replicate_succ,
    Array.insertIdxIfInBounds, hi]
  rfl

/-- Instructions that only go back can be appended one by one. -/
theorem reachable_ofList (hc : instructions.length ≤ UInt32.size)
    (ht : ∀ item ∈ instructions.zipIdx, ∀ t ∈ item.1.targets, ∃ n < item.2, t = handleOf n) :
    (ofList instructions).Reachable := by
  induction instructions using List.reverseRecOn with
  | nil => exact .empty
  | append_singleton before i ih =>
    rw [List.zipIdx_append, List.forall_mem_append] at ht
    rw [List.length_append] at hc
    have hb : before.length ≤ UInt32.size := Nat.le_of_add_right_le hc
    have hi : ∀ t ∈ i.targets, (ofList before).contains t := by
      intro t hm
      obtain ⟨n, hn, rfl⟩ := ht.2 (i, before.length) (by simp) t hm
      exact contains_ofList hn hb
    refine .edit (ih hb ht.1) ((edit_append hi).trans (congrArg _ place_ofList)) ?_
    simpa [ofList] using hc

end InstructionSeq

end Classfile
