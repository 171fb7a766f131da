import Classfile.Code.Patching
import Classfile.Proofs.Arena.Runs
import Classfile.Proofs.Code.Decoded

/-!
Reading code into an arena gives the arena of the sequence that was read. Before the targets are
filled in and while this is done, the instructions lie in the order in which they were put in, one
in each slot.
-/
namespace Classfile

open InstructionSeq Arena

variable {i : Instruction Handle} {is js : List (Instruction Handle)} {n k : Nat}
  {pool : ConstantPool} {code : List UInt8}

namespace Instruction

variable {τ σ ε : Type} {i : Instruction τ} {j : Instruction σ} {f : τ → Except ε σ}

theorem overlay_eq {others targets : List τ} (h : others.length = targets.length) :
    overlay others targets = others := by
  induction others generalizing targets with
  | nil =>
    rw [List.length_nil, eq_comm, List.length_eq_zero_iff] at h
    rw [h, overlay]
    simp
  | cons other others ih =>
    cases targets with
    | nil => cases h
    | cons target targets => rw [overlay, ih (Nat.succ.inj h)]

theorem patch_nil : i.patch [] = i := by
  cases i with
  | tableSwitch => simp [patch, overlay]
  | lookupSwitch default cases =>
    have hz : (cases.map (·.1)).zip (cases.map (·.2)) = cases := by
      rw [List.zip_map']
      simp
    simp [patch, overlay, hz]
  | _ => rfl

theorem resolve_cases {cases : List (Int32 × τ)} :
    (cases.mapM fun (key, target) => do return (key, ← f target)) =
      (cases.map (·.2)).mapM f >>= fun others => .ok ((cases.map (·.1)).zip others) := by
  induction cases with
  | nil => rfl
  | cons c cases ih =>
    obtain ⟨key, target⟩ := c
    rw [List.mapM_cons, ih, List.map_cons, List.mapM_cons]
    simp only
    cases f target with
    | error e => rfl
    | ok other => cases (cases.map (·.2)).mapM f <;> rfl

/-- To resolve targets is to collect what they resolve to, and to put it in their places. -/
theorem resolve_eq_patch (blank : σ) : i.resolve f =
    i.targets.mapM f >>= fun others => .ok ((i.mapTargets fun _ => blank).patch others) := by
  cases i with
  | branch condition target | jump kind target | wideJump kind target =>
    simp only [resolve, targets, List.mapM_cons, List.mapM_nil]
    cases f target <;> rfl
  | tableSwitch default low cases =>
    simp only [resolve, targets, List.mapM_cons]
    cases f default with
    | error e => rfl
    | ok first =>
      cases hc : cases.mapM f with
      | error e => rfl
      | ok others =>
        have hl : others.length = (List.replicate cases.length blank).length := by
          rw [List.length_replicate, Except.mapM_length hc]
        simp [mapTargets, patch, overlay_eq hl]
  | lookupSwitch default cases =>
    simp only [resolve, targets, List.mapM_cons, resolve_cases]
    cases f default with
    | error e => rfl
    | ok first =>
      cases hc : (cases.map (·.2)).mapM f with
      | error e => rfl
      | ok others =>
        have hl : others.length = (List.replicate cases.length blank).length := by
          rw [List.length_replicate, Except.mapM_length hc, List.length_map]
        simp [mapTargets, patch, overlay_eq hl, Function.comp_def]
  | _ => rfl

theorem targets_patch {others : List τ} (h : others.length = i.targets.length) :
    (i.patch others).targets = others := by
  cases i with
  | branch | jump | wideJump =>
    obtain ⟨other, rfl⟩ := List.length_eq_one_iff.mp h
    rfl
  | tableSwitch default low cases =>
    cases others with
    | nil => cases h
    | cons other others =>
      simp [patch, targets, overlay_eq (Nat.succ.inj h)]
  | lookupSwitch default cases =>
    cases others with
    | nil => cases h
    | cons other others =>
      have hl : others.length = (cases.map (·.2)).length := Nat.succ.inj h
      have hz : (cases.map (·.1)).length = others.length := by simp [hl]
      simp [patch, targets, overlay_eq hl, List.map_snd_zip, hz]
  | _ => exact (List.length_eq_zero_iff.mp h).symm

/-- Targets are resolved one by one, in the order in which they are stored. -/
theorem mapM_targets_of_resolve (blank : σ) (h : i.resolve f = .ok j) :
    i.targets.mapM f = .ok j.targets := by
  rw [resolve_eq_patch blank] at h
  obtain ⟨others, ho, h⟩ := Except.bind_eq_ok.mp h
  cases h
  have hl : others.length = (i.mapTargets fun _ => blank).targets.length := by
    rw [targets_mapTargets, List.length_map, Except.mapM_length ho]
  rw [targets_patch hl, ho]

theorem resolve_eq_error {e : ε} (blank : σ) :
    i.resolve f = .error e ↔ i.targets.mapM f = .error e := by
  rw [resolve_eq_patch blank]
  cases i.targets.mapM f <;> simp

end Instruction

namespace Arena

/-- What lies in a slot when there are so many instructions. -/
def laidNode (size n : Nat) (i : Instruction Handle) : ArenaNode where
  instruction := i
  prev := lastIndex ((List.range n).map handleOf)
  next := if n + 1 < size then some (UInt32.ofNat (n + 1)) else none

/-- The arena in which instructions lie in their order, none of which was ever taken out. -/
def laid (is : List (Instruction Handle)) : Arena where
  slots := (is.zipIdx.map fun (i, n) => ⟨0, some (laidNode is.length n i)⟩).toArray
  free := []
  head := if is.isEmpty then none else some 0
  tail := lastIndex ((List.range is.length).map handleOf)
  size := is.length

theorem laid_slot :
    (laid is).slots[k]? = is[k]?.map fun i => ⟨0, some (laidNode is.length k i)⟩ := by
  rw [laid, List.getElem?_toArray, List.getElem?_map, List.getElem?_zipIdx]
  simp [Function.comp_def]

theorem laid_slots_size : (laid is).slots.size = is.length := by
  simp [laid]

theorem toNat_index (hn : n < UInt32.size) : (UInt32.ofNat n).toNat = n :=
  UInt32.toNat_ofNat_of_lt' hn

theorem laid_nodeAt? (hn : n < UInt32.size) :
    (laid is).nodeAt? (UInt32.ofNat n) = is[n]?.map (laidNode is.length n) := by
  rw [nodeAt?, toNat_index hn, laid_slot]
  cases is[n]? <;> rfl

theorem lastIndex_range_succ :
    lastIndex ((List.range (n + 1)).map handleOf) = some (UInt32.ofNat n) := by
  rw [List.range_succ, List.map_append]
  exact lastIndex_concat

/-- The arena with one more slot, to which nothing is linked yet. -/
def widened (is : List (Instruction Handle)) (i : Instruction Handle) : Arena :=
  { laid is with
    slots := (laid is).slots.push ⟨0, some ⟨i, (laid is).tail, none⟩⟩
    size := is.length + 1 }

theorem widened_slot : (widened is i).slots[k]? =
    if k = is.length then some ⟨0, some ⟨i, (laid is).tail, none⟩⟩ else (laid is).slots[k]? := by
  rw [widened, Array.getElem?_push, laid_slots_size]

/-- Only the link that led nowhere changes. -/
theorem relink_widened (hn : is.length < UInt32.size) :
    (widened is i).relink (laid is).tail none (some (UInt32.ofNat is.length))
      (some (UInt32.ofNat is.length)) = laid (is ++ [i]) := by
  rcases List.eq_nil_or_concat is with rfl | ⟨js, j, rfl⟩
  · rfl
  · rw [List.concat_eq_append, List.length_append, List.length_singleton] at hn ⊢
    have htail : (laid (js ++ [j])).tail = some (UInt32.ofNat js.length) := by
      rw [laid, List.length_append, List.length_singleton, lastIndex_range_succ]
    have hslots : ((widened (js ++ [j]) i).change (UInt32.ofNat js.length) fun node =>
        { node with next := some (UInt32.ofNat (js.length + 1)) }).slots =
          (laid (js ++ [j] ++ [i])).slots := by
      apply Array.ext_getElem?
      intro k
      rw [change, Array.getElem?_modify, widened_slot, laid_slot, toNat_index (by omega), laid_slot,
        htail]
      rcases Nat.lt_trichotomy k js.length with hk | rfl | hk
      · rw [if_neg (by omega), if_neg (by simp; omega), List.append_assoc,
          List.getElem?_append_left hk, List.getElem?_append_left hk]
        simp [laidNode, hk, Nat.lt_succ_of_lt hk]
      · simp [laidNode, ArenaSlot.change]
      · rw [if_neg (by omega)]
        by_cases he : k = js.length + 1
        · subst he
          simp [laidNode, lastIndex_range_succ]
        · rw [if_neg (by simpa using he), List.getElem?_eq_none (by simp; omega),
            List.getElem?_eq_none (by simp; omega)]
          rfl
    have hlaid : laid (js ++ [j] ++ [i]) = { laid (js ++ [j]) with
        slots := (laid (js ++ [j] ++ [i])).slots
        tail := some (UInt32.ofNat (js.length + 1))
        size := js.length + 2 } := by
      simp [laid, lastIndex_range_succ]
    rw [relink, htail, withNext, withPrev, hlaid, ← hslots]
    simp [change, widened]

theorem push_laid (hn : is.length < UInt32.size) :
    ArenaM.push i (laid is) = .ok (handleOf is.length) (laid (is ++ [i])) := by
  have hslots : (laid is).slots.size = is.length := laid_slots_size
  have ha : ArenaM.allocate ⟨i, (laid is).tail, none⟩ (laid is) =
      .ok (UInt32.ofNat is.length) (widened is i) := by
    rw [← hslots]
    simp [ArenaM.allocate, laid, widened]
  rw [ArenaM.push, ArenaM.get_bind, ArenaM.splice, EStateM.bind_of_ok ha, ArenaM.relink_run,
    relink_widened hn, ArenaM.ask_of_some]
  · rw [handleOf?, toNat_index hn, laid_slot, List.getElem?_concat_length]
    rfl
  · intro k hk
    -- The tail is the slot of the last instruction.
    obtain ⟨h, hh, rfl⟩ := Option.map_eq_some_iff.mp hk
    rw [List.getLast?_map] at hh
    obtain ⟨n, hlast, rfl⟩ := Option.map_eq_some_iff.mp hh
    have hlt : n < is.length := List.mem_range.mp (List.mem_of_getLast? hlast)
    rw [linksAt?, nodeAt?, handleOf, toNat_index (by omega), widened_slot, if_neg (by omega),
      laid_slot, List.getElem?_eq_getElem hlt]
    exact ⟨_, rfl⟩
  · intro k hk
    cases hk

theorem split_range {xs ys : List Handle} {h : Handle} {size : Nat}
    (he : (List.range size).map handleOf = xs ++ h :: ys) : xs.length < size ∧
      xs = (List.range xs.length).map handleOf ∧ h = handleOf xs.length ∧
        firstIndex ys =
          if xs.length + 1 < size then some (UInt32.ofNat (xs.length + 1)) else none := by
  have hsize : size = xs.length + (ys.length + 1) := by simpa using congrArg List.length he
  have hget : ∀ k, (xs ++ h :: ys)[k]? = if k < size then some (handleOf k) else none := by
    intro k
    rw [← he, List.getElem?_map]
    split
    · rename_i hk
      rw [List.getElem?_range hk]
      rfl
    · rename_i hk
      rw [List.getElem?_eq_none (by simpa using hk)]
      rfl
  refine ⟨by omega, ?_, ?_, ?_⟩
  · have ht := congrArg (List.take xs.length) he
    rw [List.take_left, ← List.map_take, List.take_range, Nat.min_eq_left (by omega)] at ht
    exact ht.symm
  · have hk := hget xs.length
    rw [if_pos (by omega)] at hk
    simpa using hk
  · have hk := hget (xs.length + 1)
    rw [List.getElem?_append_right (Nat.le_succ _), Nat.succ_sub (Nat.le_refl _), Nat.sub_self,
      List.getElem?_cons_succ, ← List.head?_eq_getElem?] at hk
    rw [firstIndex, hk]
    split <;> rfl

theorem represents_laid (hn : is.length ≤ UInt32.size) : (laid is).Represents (ofList is) where
  chained := by
    rw [ofList_handles]
    refine ⟨?_, rfl, fun xs h ys he => ?_⟩
    · cases is with
      | nil => rfl
      | cons i is => simp [laid, firstIndex, List.range_succ_eq_map, handleOf]
    · obtain ⟨hlt, hx, rfl, hy⟩ := split_range he
      rw [linksAt?, handleOf, laid_nodeAt? (by omega), List.getElem?_eq_getElem hlt, hy]
      simp only [Option.map_some, laidNode]
      rw [← hx]
  instructions := by
    intro item hm
    rw [ofList_toList] at hm
    obtain ⟨⟨i, n⟩, hi, rfl⟩ := List.mem_map.mp hm
    rw [List.mem_zipIdx_iff_getElem?] at hi
    have hlt := (List.getElem?_eq_some_iff.mp hi).1
    change (laid is).instructionAt? (UInt32.ofNat n) = some i
    rw [instructionAt?, laid_nodeAt? (by omega), hi]
    rfl
  slots := by
    apply Array.ext_getElem?
    intro k
    rw [Array.getElem?_map, laid_slot, ofList, Array.getElem?_replicate]
    split
    · rename_i hlt
      rw [List.getElem?_eq_getElem hlt]
      rfl
    · rename_i hlt
      rw [List.getElem?_eq_none (Nat.le_of_not_lt hlt)]
      rfl
  free := rfl
  size := by simp [laid, InstructionSeq.size, ofList]

theorem laid_contains (hlt : n < is.length) (hn : is.length ≤ UInt32.size) :
    (laid is).contains (handleOf n) = true := by
  change ((laid is).node? ⟨UInt32.ofNat n, 0⟩).isSome = true
  rw [node?, toNat_index (by omega), laid_slot, List.getElem?_eq_getElem hlt]
  rfl

theorem change_laid {f : Instruction Handle → Instruction Handle}
    (hn : (is ++ i :: js).length ≤ UInt32.size) :
    (laid (is ++ i :: js)).change (UInt32.ofNat is.length)
      (fun node => { node with instruction := f node.instruction }) =
        laid (is ++ f i :: js) := by
  have hlen : (is ++ f i :: js).length = (is ++ i :: js).length := by simp
  have hlt : is.length < UInt32.size := by
    rw [List.length_append, List.length_cons] at hn
    omega
  have hslots : ((laid (is ++ i :: js)).change (UInt32.ofNat is.length)
      fun node => { node with instruction := f node.instruction }).slots =
        (laid (is ++ f i :: js)).slots := by
    apply Array.ext_getElem?
    intro k
    rw [change, Array.getElem?_modify, laid_slot, laid_slot, toNat_index hlt, hlen]
    rcases Nat.lt_trichotomy k is.length with hk | rfl | hk
    · rw [if_neg (by omega), List.getElem?_append_left hk, List.getElem?_append_left hk]
    · simp [laidNode, ArenaSlot.change]
    · rw [if_neg (by omega), List.getElem?_append_right (by omega),
        List.getElem?_append_right (by omega)]
      obtain ⟨m, hm⟩ : ∃ m, k - is.length = m + 1 := ⟨k - is.length - 1, by omega⟩
      rw [hm, List.getElem?_cons_succ, List.getElem?_cons_succ]
  have hlaid : laid (is ++ f i :: js) = { laid (is ++ i :: js) with
      slots := (laid (is ++ f i :: js)).slots } := by
    rw [laid, laid, hlen]
    simp
  rw [hlaid, ← hslots]
  rfl

end Arena

namespace ArenaM

variable {α β γ δ : Type} {a b : Arena} {x : ArenaM α} {r : Except Fault β}

/-- The operation ends like a computation. Nothing is said of the arena if it is refused. -/
def Ends (x : ArenaM α) (a : Arena) (r : Except Fault β) (post : α → Arena → β → Prop) : Prop :=
  match r with
  | .ok y => ∃ v b, x a = .ok v b ∧ post v b y
  | .error fault => ∃ b, x a = .error (.refused fault) b

theorem Ends.bind {P : α → Arena → β → Prop} {post : γ → Arena → δ → Prop} {f : α → ArenaM γ}
    {k : β → Except Fault δ} (hx : Ends x a r P)
    (hf : ∀ v b y, r = .ok y → P v b y → Ends (f v) b (k y) post) :
    Ends (x >>= f) a (r >>= k) post := by
  cases r with
  | error fault =>
    obtain ⟨b, hb⟩ := hx
    exact ⟨b, EStateM.bind_of_error hb⟩
  | ok y =>
    obtain ⟨v, b, hv, hp⟩ := hx
    have hk := hf v b y rfl hp
    rw [Except.ok_bind]
    unfold Ends at hk ⊢
    rwa [EStateM.bind_of_ok hv]

theorem ends_bind_of_ok {v : α} {f : α → ArenaM γ} {post : γ → Arena → β → Prop}
    (hx : x a = .ok v b) (hf : Ends (f v) b r post) : Ends (x >>= f) a r post := by
  unfold Ends at hf ⊢
  rwa [EStateM.bind_of_ok hx]

theorem Ends.map {P : α → Arena → β → Prop} {post : α → Arena → δ → Prop} {k : β → δ}
    (hx : Ends x a r P) (hp : ∀ v b y, P v b y → post v b (k y)) :
    Ends x a (r >>= fun y => pure (k y)) post := by
  cases r with
  | error fault => exact hx
  | ok y =>
    obtain ⟨v, b, hv, hb⟩ := hx
    exact ⟨v, b, hv, hp v b y hb⟩

theorem ends_pure {v : α} {y : β} {post : α → Arena → β → Prop} (hp : post v a y) :
    Ends (pure v) a (.ok y : Except Fault β) post :=
  ⟨v, a, rfl, hp⟩

theorem ends_lift : Ends (lift r) a r fun v b y => v = y ∧ b = a := by
  cases r with
  | ok y => exact ⟨y, a, rfl, rfl, rfl⟩
  | error fault => exact ⟨a, rfl⟩

/-- The first pass. -/
theorem push_all {items : List α} {f : α → Instruction Handle}
    (hn : is.length + items.length ≤ UInt32.size) :
    (items.mapM fun x => push (f x)) (laid is) =
      .ok ((List.range' is.length items.length).map handleOf) (laid (is ++ items.map f)) := by
  induction items generalizing is with
  | nil =>
    rw [List.map_nil, List.append_nil]
    rfl
  | cons x items ih =>
    rw [List.length_cons] at hn
    have hi := @ih (is ++ [f x]) (by simp; omega)
    rw [List.mapM_cons, EStateM.bind_of_ok (push_laid (by omega)), EStateM.bind_of_ok hi]
    simp [List.range'_succ]
    rfl

theorem patch_laid {targets : List Handle} (hn : (is ++ i :: js).length ≤ UInt32.size) :
    patch (handleOf is.length) targets (laid (is ++ i :: js)) =
      .ok () (laid (is ++ i.patch targets :: js)) := by
  have hc := @laid_contains (is ++ i :: js) is.length (by simp) hn
  rw [← change_laid hn]
  change EStateM.Result.ok () (if _ then _ else _) = _
  rw [if_pos hc]
  rfl

variable {table : Std.HashMap Int Handle} {start : Nat} {target : Int}
  {items : List (Nat × Instruction Int)}

theorem ends_fill {i : Instruction Int} (hn : is.length + (js.length + 1) ≤ UInt32.size) :
    Ends (fill table start (handleOf is.length) i.targets)
      (laid (is ++ i.mapTargets (fun _ => .unresolved) :: js))
      (i.resolve (find table start)) fun _ b j => b = laid (is ++ j :: js) := by
  rw [Instruction.resolve_eq_patch .unresolved, fill]
  cases ht : i.targets with
  | nil =>
    rw [List.mapM_nil]
    exact ends_pure (by rw [Instruction.patch_nil])
  | cons target targets =>
    refine ends_lift.bind ?_
    rintro _ _ others - ⟨rfl, rfl⟩
    exact ⟨(), _, patch_laid (by simpa using hn), rfl⟩

/-- The second pass. -/
theorem ends_fill_all (hn : is.length + items.length ≤ UInt32.size) :
    Ends ((items.zip ((List.range' is.length items.length).map handleOf)).forM
        fun ((start, i), h) => fill table start h i.targets)
      (laid (is ++ items.map fun (_, i) => i.mapTargets fun _ => .unresolved))
      (items.mapM fun (start, i) => i.resolve (find table start))
      fun _ b js => b = laid (is ++ js) := by
  induction items generalizing is with
  | nil => exact ends_pure rfl
  | cons item items ih =>
    rw [List.length_cons] at hn
    rw [List.length_cons, List.range'_succ, List.map_cons, List.zip_cons_cons, List.mapM_cons,
      List.map_cons]
    refine (ends_fill (by simpa using hn)).bind ?_
    rintro _ _ j - rfl
    have hi := @ih (is ++ [j]) (by simp; omega)
    rw [List.length_append, List.append_assoc] at hi
    exact hi.map fun _ _ js he => by rw [he, List.append_assoc, List.singleton_append]

/-! ### Looking targets up -/

theorem handleAtOffset?_of_mem {starts : Array (Nat × Handle)} {offset : Nat} {h : Handle}
    (hr : starts.toList.Pairwise fun x y => x.1 < y.1) (hm : (offset, h) ∈ starts.toList) :
    handleAtOffset? starts offset = some h := by
  obtain ⟨before, after, hl⟩ := List.append_of_mem hm
  rw [hl, List.pairwise_append, List.pairwise_cons] at hr
  have hb : lowerBound starts offset = before.length := by
    refine lowerBound_eq hl (fun x hx => hr.2.2 x hx _ List.mem_cons_self) fun y hy => ?_
    rcases List.mem_cons.mp hy with rfl | hy
    · exact Nat.le_refl _
    · exact Nat.le_of_lt (hr.2.1.1 y hy)
  have hg : starts[before.length]? = some (offset, h) := by
    rw [← Array.getElem?_toList, hl, List.getElem?_append_right (Nat.le_refl _), Nat.sub_self]
    rfl
  rw [handleAtOffset?, hb, hg]
  exact if_pos rfl

/-- Looking an offset up in a table gives what a search among the sorted offsets gives. -/
theorem find_eq {starts : Array (Nat × Handle)}
    (hr : starts.toList.Pairwise fun x y => x.1 < y.1) :
    find (byOffset starts.toList) start target = resolveTarget starts start target := by
  have hkeys : (starts.toList.map fun entry => ((entry.1 : Int), entry.2)).Pairwise
      fun x y => (x.1 == y.1) = false := by
    rw [List.pairwise_map]
    refine hr.imp fun hlt => ?_
    rw [beq_eq_false_iff_ne]
    exact fun he => Nat.ne_of_lt hlt (Int.ofNat.inj he)
  by_cases hm : ∃ offset h, (offset, h) ∈ starts.toList ∧ target = (offset : Int)
  · obtain ⟨offset, h, hm, rfl⟩ := hm
    have hk : ((offset : Int), h) ∈ starts.toList.map fun entry => ((entry.1 : Int), entry.2) :=
      List.mem_map_of_mem hm
    rw [find, byOffset, Std.HashMap.getElem?_ofList_of_mem (beq_self_eq_true _) hkeys hk,
      resolveTarget, if_neg (by omega), Int.toNat_natCast, handleAtOffset?_of_mem hr hm]
  · have hnone : (if target < 0 then none else handleAtOffset? starts target.toNat) = none := by
      split
      · rfl
      · refine Option.eq_none_iff_forall_ne_some.mpr fun h hf => hm ?_
        exact ⟨_, h, mem_of_handleAtOffset? hf, by omega⟩
    rw [find, byOffset, Std.HashMap.getElem?_ofList_of_contains_eq_false, resolveTarget, hnone]
    rw [List.map_map, ← Bool.not_eq_true, List.contains_iff_mem, List.mem_map]
    rintro ⟨⟨offset, h⟩, hx, he⟩
    exact hm ⟨offset, h, hx, he.symm⟩

theorem startsOf_toList : (startsOf items).toList =
    (items.map (·.1)).zip ((List.range' 0 items.length).map handleOf) := by
  rw [List.zip_map, ← List.zipIdx_eq_zip_range']
  rfl

/-- Reading code into an arena gives what reading it gives. -/
theorem ends_decode
    (hc : ∀ items, Instruction.readAll pool code = .ok items → items.length ≤ UInt32.size) :
    Ends (decode pool code) .empty (decodeCode pool code) fun offsets b d =>
      offsets = d.offsets ∧ b.Represents d.instructions := by
  refine ends_lift.bind ?_
  rintro items _ _ hread ⟨rfl, rfl⟩
  have hlen : ([] : List (Instruction Handle)).length + items.length ≤ UInt32.size := by
    rw [List.length_nil, Nat.zero_add]
    exact hc items hread
  have hfind : find (byOffset (startsOf items).toList) = resolveTarget (startsOf items) :=
    funext fun start => funext fun target => find_eq (rising_startsOf hread)
  have hfill := @ends_fill_all [] (byOffset (startsOf items).toList) items hlen
  rw [hfind] at hfill
  refine ends_bind_of_ok (push_all hlen) ?_
  simp only [List.length_nil, ← startsOf_toList]
  refine hfill.bind ?_
  rintro _ _ instructions hr rfl
  rw [← Except.mapM_length hr, ← List.length_append] at hlen
  exact ends_pure ⟨rfl, represents_laid hlen⟩

end ArenaM

end Classfile
