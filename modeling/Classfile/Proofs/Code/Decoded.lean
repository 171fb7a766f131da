import Classfile.Proofs.Code.Encoding
import Classfile.Proofs.Code.Reachable
import Classfile.Proofs.Pool.Growth

/-!
What holds for all code that could be read: every operand has been checked, table switches have as
many cases as their bounds say, instructions stand in the order of their offsets, and an offset
leads to the position of the instruction that starts there.
-/
namespace Classfile

namespace CodeReader

variable {α β : Type} {r : CodeReader α} {P : α → Prop} {Q : β → Prop} {a : α} {start : Nat}

/-- The reader does not go back, and whatever it gives has the property. -/
def Gives (r : CodeReader α) (P : α → Prop) : Prop :=
  ∀ ⦃c a c'⦄, r c = .ok (a, c') → c.offset ≤ c'.offset ∧ P a

theorem gives_pure (h : P a) : (pure a : CodeReader α).Gives P := by
  intro c b c' hb
  cases hb
  exact ⟨Nat.le_refl _, h⟩

theorem Gives.bind {f : α → CodeReader β} (h : r.Gives P) (hf : ∀ a, P a → (f a).Gives Q) :
    (r >>= f).Gives Q := by
  intro c b c' hb
  obtain ⟨⟨a, mid⟩, hr, hb⟩ := Except.bind_eq_ok.mp hb
  obtain ⟨hc, ha⟩ := h hr
  obtain ⟨hm, hb⟩ := hf a ha hb
  exact ⟨Nat.le_trans hc hm, hb⟩

theorem gives_part_of_ensures {r : Reader α} {size : Nat} (hr : r.Ensures P) :
    (part start size r).Gives P := by
  intro c a c' h
  unfold part at h
  split at h
  · rename_i ha
    cases h
    exact ⟨Nat.le_add_right _ _, hr ha⟩
  · cases h

theorem gives_part {r : Reader α} {size : Nat} : (part start size r).Gives fun _ => True :=
  gives_part_of_ensures Reader.ensures_true

theorem gives_flaw {f : CodeFlaw} : (flaw start f : CodeReader α).Gives P := by
  intro c a c' h
  cases h

theorem gives_flaw_bind {f : CodeFlaw} {g : α → CodeReader β} :
    (flaw start f >>= g).Gives Q := by
  intro c b c' h
  cases h

theorem gives_lift {x : Except Fault α} : (liftM x : CodeReader α).Gives fun a => x = .ok a := by
  intro c a c' h
  obtain ⟨b, hb, h⟩ := Except.bind_eq_ok.mp h
  cases h
  exact ⟨Nat.le_refl _, hb⟩

theorem gives_discard (h : r.Gives P) : (discard r : CodeReader Unit).Gives fun _ => True := by
  intro c u c' hu
  obtain ⟨⟨a, mid⟩, hr, hu⟩ := Except.bind_eq_ok.mp hu
  cases hu
  exact ⟨(h hr).1, trivial⟩

theorem gives_remaining : remaining.Gives fun _ => True := by
  intro c n c' h
  cases h
  exact ⟨Nat.le_refl _, trivial⟩

theorem gives_index {pool : ConstantPool} {role : Role} : (index start pool role).Gives fun i =>
    pool.checked role i = .ok i := by
  refine gives_part.bind fun i _ c j c' h => ?_
  obtain ⟨hc, hj⟩ := gives_lift h
  obtain ⟨rfl, -⟩ := ConstantPool.checked_eq_ok.mp hj
  exact ⟨hc, hj⟩

end CodeReader

namespace Instruction

open CodeReader

variable {τ σ : Type} {pool : ConstantPool} {start : Nat} {i : Instruction τ}

/-- A table switch has a case, and its last case has a number. -/
def Bounded : Instruction τ → Prop
  | tableSwitch _ low cases => cases ≠ [] ∧ low.toInt + cases.length - 1 ≤ 2147483647
  | _ => True

/-- What holds of every instruction that was read. -/
structure Readable (pool : ConstantPool) (i : Instruction τ) : Prop where
  wellTyped : i.WellTyped pool
  bounded : i.Bounded

theorem readable_of_none (h : i.operand? = none) (hb : i.Bounded) : i.Readable pool := by
  refine ⟨fun operand ho => ?_, hb⟩
  rw [h] at ho
  cases ho

theorem readable_of_some {index : ConstantIndex} {role : Role} (h : i.operand? = some (index, role))
    (hc : pool.checked role index = .ok index) (hb : i.Bounded) : i.Readable pool := by
  refine ⟨fun operand ho => ?_, hb⟩
  rw [h] at ho
  cases ho
  exact hc

theorem gives_readWide : (readWide start).Gives fun i => i.Readable pool := by
  refine gives_part.bind fun byte _ => ?_
  split
  · exact gives_part.bind fun _ _ => gives_pure (readable_of_none rfl trivial)
  · exact gives_part.bind fun _ _ => gives_pure (readable_of_none rfl trivial)
  · exact gives_part.bind fun _ _ => gives_pure (readable_of_none rfl trivial)
  · exact gives_part.bind fun _ _ => gives_part.bind fun _ _ =>
      gives_pure (readable_of_none rfl trivial)
  · exact gives_flaw

theorem gives_narrowTarget : (narrowTarget start).Gives fun _ => True :=
  gives_part.bind fun _ _ => gives_pure trivial

theorem gives_wideTarget : (wideTarget start).Gives fun _ => True :=
  gives_part.bind fun _ _ => gives_pure trivial

/-- There are as many cases as numbers from the lowest to the highest. -/
theorem bounded_tableSwitch {default : τ} {low high : Int32} {cases : List τ} (hle : ¬ high < low)
    (hl : cases.length = (high.toInt - low.toInt + 1).toNat) :
    (tableSwitch default low cases).Bounded := by
  rw [Int32.lt_iff_toInt_lt] at hle
  have hmax : high.toInt ≤ 2147483647 := Int32.toInt_le high
  have hlen : (cases.length : Int) = high.toInt - low.toInt + 1 := by omega
  refine ⟨?_, by omega⟩
  rintro rfl
  rw [List.length_nil] at hlen
  omega

theorem gives_readTableSwitch : (readTableSwitch start).Gives fun i => i.Readable pool := by
  refine (gives_discard gives_part).bind fun _ _ => gives_wideTarget.bind fun _ _ => ?_
  refine gives_part.bind fun low _ => gives_part.bind fun high _ => ?_
  split
  · exact gives_flaw_bind
  · rename_i hle
    refine gives_remaining.bind fun n _ => ?_
    split
    · exact gives_flaw_bind
    · refine (gives_part_of_ensures Reader.ensures_length_times).bind fun cases hl => ?_
      refine gives_pure (readable_of_none rfl (bounded_tableSwitch hle ?_))
      rw [List.length_map, hl]

theorem gives_readLookupSwitch : (readLookupSwitch start).Gives fun i => i.Readable pool := by
  refine (gives_discard gives_part).bind fun _ _ => gives_wideTarget.bind fun _ _ => ?_
  refine gives_part.bind fun count _ => gives_remaining.bind fun n _ => ?_
  split
  · exact gives_flaw_bind
  · exact gives_part.bind fun _ _ => gives_pure (readable_of_none rfl trivial)

theorem readable_ofShortByte? {byte : UInt8} {i : Instruction Int}
    (h : ofShortByte? byte = some i) : i.Readable pool := by
  unfold ofShortByte? at h
  split at h
  · obtain ⟨type, -, h⟩ := Option.bind_eq_some_iff.mp h
    cases h
    exact readable_of_none rfl trivial
  · split at h
    · obtain ⟨type, -, h⟩ := Option.bind_eq_some_iff.mp h
      cases h
      exact readable_of_none rfl trivial
    · cases h

theorem gives_readOperands (o : Opcode) :
    (readOperands pool start o).Gives fun i => i.Readable pool := by
  cases o with
  | simple op => exact gives_pure (readable_of_none rfl trivial)
  | pushByte => exact gives_part.bind fun _ _ => gives_pure (readable_of_none rfl trivial)
  | pushShort => exact gives_part.bind fun _ _ => gives_pure (readable_of_none rfl trivial)
  | constant =>
    refine gives_part.bind fun byte _ => gives_lift.bind fun index h => gives_pure ?_
    obtain ⟨rfl, -⟩ := ConstantPool.checked_eq_ok.mp h
    exact readable_of_some rfl h trivial
  | wideConstant => exact gives_index.bind fun _ h => gives_pure (readable_of_some rfl h trivial)
  | load type => exact gives_part.bind fun _ _ => gives_pure (readable_of_none rfl trivial)
  | store type => exact gives_part.bind fun _ _ => gives_pure (readable_of_none rfl trivial)
  | increment =>
    exact gives_part.bind fun _ _ => gives_part.bind fun _ _ =>
      gives_pure (readable_of_none rfl trivial)
  | branch condition =>
    exact gives_narrowTarget.bind fun _ _ => gives_pure (readable_of_none rfl trivial)
  | jump kind => exact gives_narrowTarget.bind fun _ _ => gives_pure (readable_of_none rfl trivial)
  | ret => exact gives_part.bind fun _ _ => gives_pure (readable_of_none rfl trivial)
  | tableSwitch => exact gives_readTableSwitch
  | lookupSwitch => exact gives_readLookupSwitch
  | field access => exact gives_index.bind fun _ h => gives_pure (readable_of_some rfl h trivial)
  | invoke mode => exact gives_index.bind fun _ h => gives_pure (readable_of_some rfl h trivial)
  | invokeInterface =>
    exact gives_index.bind fun _ h => gives_part.bind fun _ _ =>
      (gives_discard gives_part).bind fun _ _ => gives_pure (readable_of_some rfl h trivial)
  | invokeDynamic =>
    refine gives_part.bind fun i _ => (gives_discard gives_part).bind fun _ _ => ?_
    refine gives_lift.bind fun index h => gives_pure ?_
    obtain ⟨rfl, -⟩ := ConstantPool.checked_eq_ok.mp h
    exact readable_of_some rfl h trivial
  | typeOp operation =>
    exact gives_index.bind fun _ h => gives_pure (readable_of_some rfl h trivial)
  | newArray =>
    refine gives_part.bind fun code _ => ?_
    split
    · exact gives_pure (readable_of_none rfl trivial)
    · exact gives_flaw
  | multiNewArray =>
    exact gives_index.bind fun _ h => gives_part.bind fun _ _ =>
      gives_pure (readable_of_some rfl h trivial)
  | wideJump kind =>
    exact gives_wideTarget.bind fun _ _ => gives_pure (readable_of_none rfl trivial)

/-- Reading an instruction goes on by its first byte at least. -/
theorem read_advances {c c' : CodeCursor} {i : Instruction Int}
    (h : read pool start c = .ok (i, c')) : c.offset < c'.offset ∧ i.Readable pool := by
  obtain ⟨⟨byte, mid⟩, hb, h⟩ := Except.bind_eq_ok.mp h
  have hm : mid.offset = c.offset + 1 := by
    unfold part at hb
    split at hb
    · cases hb
      rfl
    · cases hb
  suffices hi : mid.offset ≤ c'.offset ∧ i.Readable pool from ⟨by omega, hi.2⟩
  dsimp only at h
  split at h
  · exact gives_readWide h
  · split at h
    · exact (gives_index.bind fun _ h => gives_pure (readable_of_some rfl h (by trivial))) h
    · cases hj : ofShortByte? byte with
      | some j =>
        rw [hj] at h
        exact gives_pure (readable_ofShortByte? hj) h
      | none =>
        rw [hj] at h
        cases ho : Opcode.ofByte? byte with
        | some o =>
          rw [ho] at h
          exact gives_readOperands o h
        | none =>
          rw [ho] at h
          exact gives_flaw h

/-- Instructions that were read one after another up to an offset, the last one first. -/
structure ReadUpTo (pool : ConstantPool) (offset : Nat) (done : List (Nat × Instruction Int)) :
    Prop where
  falling : done.Pairwise fun x y => y.1 < x.1
  below : ∀ x ∈ done, x.1 < offset
  readable : ∀ x ∈ done, x.2.Readable pool

theorem ReadUpTo.cons {c next : CodeCursor} {i : Instruction Int}
    {done : List (Nat × Instruction Int)} (hd : ReadUpTo pool c.offset done)
    (hr : read pool c.offset c = .ok (i, next)) :
    ReadUpTo pool next.offset ((c.offset, i) :: done) := by
  obtain ⟨hlt, hi⟩ := read_advances hr
  refine ⟨List.pairwise_cons.mpr ⟨hd.below, hd.falling⟩, ?_, ?_⟩
  · intro x hx
    rcases List.mem_cons.mp hx with rfl | hx
    · exact hlt
    · exact Nat.lt_trans (hd.below x hx) hlt
  · intro x hx
    rcases List.mem_cons.mp hx with rfl | hx
    · exact hi
    · exact hd.readable x hx

/-- Instructions are read in the order of their offsets, no more than there are bytes. -/
theorem readUpTo_readAllOnto {fuel : Nat} {done items : List (Nat × Instruction Int)}
    {c : CodeCursor} (h : readAllOnto pool done fuel c = .ok items)
    (hd : ReadUpTo pool c.offset done) :
    ∃ offset, ReadUpTo pool offset items.reverse ∧ items.length ≤ done.length + fuel := by
  induction fuel generalizing done c with
  | zero =>
    cases h
    exact ⟨c.offset, by rwa [List.reverse_reverse], by simp⟩
  | succ fuel ih =>
    unfold readAllOnto at h
    split at h
    · cases h
      exact ⟨c.offset, by rwa [List.reverse_reverse], by simp⟩
    · split at h
      · rename_i i next hr
        obtain ⟨offset, ho, hl⟩ := ih h (hd.cons hr)
        rw [List.length_cons] at hl
        exact ⟨offset, ho, by omega⟩
      · cases h

theorem readUpTo_readAll {code : List UInt8} {items : List (Nat × Instruction Int)}
    (h : readAll pool code = .ok items) :
    ∃ offset, ReadUpTo pool offset items.reverse ∧ items.length ≤ code.length := by
  obtain ⟨offset, hu, hl⟩ := readUpTo_readAllOnto h ⟨.nil, nofun, nofun⟩
  rw [List.length_nil, Nat.zero_add] at hl
  exact ⟨offset, hu, hl⟩

theorem rising_readAll {code : List UInt8} {items : List (Nat × Instruction Int)}
    (h : readAll pool code = .ok items) : items.Pairwise fun x y => x.1 < y.1 := by
  obtain ⟨offset, hu, -⟩ := readUpTo_readAll h
  exact List.pairwise_reverse.mp hu.falling

theorem operand?_resolve {ε : Type} {f : τ → Except ε σ} {j : Instruction σ}
    (h : i.resolve f = .ok j) : j.operand? = i.operand? := by
  cases i with
  | branch _ target | jump _ target | wideJump _ target =>
    obtain ⟨u, -, rfl⟩ := Except.map_eq_ok.mp h
    rfl
  | tableSwitch default low cases | lookupSwitch default cases =>
    obtain ⟨u, -, h⟩ := Except.bind_eq_ok.mp h
    obtain ⟨us, -, rfl⟩ := Except.map_eq_ok.mp h
    rfl
  | _ => cases h; rfl

theorem bounded_resolve {ε : Type} {f : τ → Except ε σ} {j : Instruction σ}
    (h : i.resolve f = .ok j) (hb : i.Bounded) : j.Bounded := by
  cases i with
  | branch _ target | jump _ target | wideJump _ target =>
    obtain ⟨u, -, rfl⟩ := Except.map_eq_ok.mp h
    trivial
  | tableSwitch default low cases =>
    obtain ⟨u, -, h⟩ := Except.bind_eq_ok.mp h
    obtain ⟨us, hus, rfl⟩ := Except.map_eq_ok.mp h
    have hlen := Except.mapM_length hus
    refine ⟨?_, by rw [hlen]; exact hb.2⟩
    rintro rfl
    exact hb.1 (List.length_eq_zero_iff.mp hlen.symm)
  | lookupSwitch default cases =>
    obtain ⟨u, -, h⟩ := Except.bind_eq_ok.mp h
    obtain ⟨us, -, rfl⟩ := Except.map_eq_ok.mp h
    trivial
  | _ => cases h; trivial

end Instruction

open InstructionSeq

variable {pool : ConstantPool} {code : List UInt8} {d : DecodedCode} {h : Handle}
  {i : Instruction Handle} {n m : Nat}

theorem startsOf_getElem? {items : List (Nat × Instruction Int)} {o : Nat} :
    (startsOf items)[n]? = some (o, h) ↔
      (∃ i, items[n]? = some (o, i)) ∧ h = handleOf n := by
  rw [startsOf, List.getElem?_toArray, List.getElem?_map, List.getElem?_zipIdx]
  cases items[n]? with
  | none => simp
  | some item =>
    obtain ⟨start, i⟩ := item
    simp [eq_comm]

theorem startsOf_map_fst {items : List (Nat × Instruction Int)} :
    (startsOf items)[n]?.map (·.1) = items[n]?.map (·.1) := by
  rw [startsOf, List.getElem?_toArray, List.getElem?_map, List.getElem?_zipIdx]
  cases items[n]? <;> rfl

theorem rising_startsOf {items : List (Nat × Instruction Int)}
    (h : Instruction.readAll pool code = .ok items) :
    (startsOf items).toList.Pairwise fun x y => x.1 < y.1 := by
  have hp := Instruction.rising_readAll h
  rw [← List.zipIdx_map_fst 0 items, List.pairwise_map] at hp
  exact List.pairwise_map.mpr hp

/-- Where the instruction at a position was read in code of some length. The position behind the
last one is that of the end. -/
def DecodedCode.startAt (d : DecodedCode) (length n : Nat) : Nat :=
  (d.offsets[n]?.map (·.1)).getD length

/-- What holds for code that was read: its instructions have the handles in their order, and their
offsets increase. -/
structure DecodedCode.Sound (pool : ConstantPool) (d : DecodedCode) : Prop where
  linked : d.instructions.Linked
  readable : ∀ item ∈ d.instructions.toList, item.2.Readable pool
  rising : d.offsets.toList.Pairwise fun x y => x.1 < y.1
  position : ∀ {n o h}, d.offsets[n]? = some (o, h) → d.instructions.position? h = some n

/-- What is known of an instruction that was read: its targets are those of the offsets. -/
theorem exists_item (hd : decodeCode pool code = .ok d)
    (hi : d.instructions.toList[n]? = some (h, i)) : ∃ items start j,
      Instruction.readAll pool code = .ok items ∧ items[n]? = some (start, j) ∧
        d.offsets[n]? = some (start, h) ∧ d.offsets = startsOf items ∧
          j.resolve (resolveTarget d.offsets start) = .ok i := by
  obtain ⟨items, instructions, hread, hr, rfl⟩ := decodeCode_eq_ok.mp hd
  rw [ofList_getElem?] at hi
  obtain ⟨j, hj, he⟩ := Option.map_eq_some_iff.mp hi
  cases he
  obtain ⟨hlt, rfl⟩ := List.getElem?_eq_some_iff.mp hj
  obtain ⟨hlen, hget⟩ := List.forall₂_iff_get.mp (Except.mapM_eq_ok.mp hr)
  have hn : items[n]? = some (items[n].1, items[n].2) := List.getElem?_eq_getElem (hlen ▸ hlt)
  exact ⟨items, items[n].1, items[n].2, hread, hn, startsOf_getElem?.mpr ⟨⟨_, hn⟩, rfl⟩, rfl,
    hget n (hlen ▸ hlt) hlt⟩

theorem readable_decodeCode (hd : decodeCode pool code = .ok d) :
    ∀ item ∈ d.instructions.toList, item.2.Readable pool := by
  rintro ⟨h, i⟩ hm
  obtain ⟨n, hi⟩ := List.getElem?_of_mem hm
  obtain ⟨items, start, j, hread, hn, -, -, he⟩ := exists_item hd hi
  obtain ⟨offset, hu, -⟩ := Instruction.readUpTo_readAll hread
  have hj : j.Readable pool := hu.readable _ (List.mem_reverse.mpr (List.mem_of_getElem? hn))
  refine ⟨fun operand ho => ?_, Instruction.bounded_resolve he hj.bounded⟩
  rw [Instruction.operand?_resolve he] at ho
  exact hj.wellTyped operand ho

theorem sound_decodeCode (hd : decodeCode pool code = .ok d) (hc : code.length < 2 ^ 32) :
    d.Sound pool := by
  obtain ⟨items, instructions, hi, hr, rfl⟩ := decodeCode_eq_ok.mp hd
  have hlen : instructions.length = items.length := Except.mapM_length hr
  have hlink : (ofList instructions).Linked := by
    obtain ⟨-, -, hl⟩ := Instruction.readUpTo_readAll hi
    refine linked_decodeCode hd ?_
    simp only [ofList, Array.size_replicate, UInt32.size]
    omega
  refine ⟨hlink, readable_decodeCode hd, rising_startsOf hi, fun {n o h} hn => ?_⟩
  obtain ⟨⟨i, hi⟩, rfl⟩ := startsOf_getElem?.mp hn
  obtain ⟨hlt, -⟩ := List.getElem?_eq_some_iff.mp hi
  refine position?_of_getElem? (i := instructions[n]) hlink ?_
  rw [ofList_toList, List.getElem?_map, List.getElem?_zipIdx]
  simp [hlen, hlt]

theorem DecodedCode.offsets_map_snd (hd : decodeCode pool code = .ok d) :
    d.offsets.toList.map (·.2) = d.instructions.handles := by
  obtain ⟨items, instructions, -, hr, rfl⟩ := decodeCode_eq_ok.mp hd
  rw [ofList_handles, Except.mapM_length hr, startsOf, List.map_map, List.range_eq_range',
    ← List.zipIdx_map_snd 0, List.map_map]
  rfl

namespace DecodedCode.Sound

theorem position_handleAt? (hd : d.Sound pool) {o : Nat} (ha : d.handleAt? o = some h) :
    ∃ n, d.offsets[n]? = some (o, h) ∧ d.instructions.position? h = some n := by
  unfold handleAt? handleAtOffset? at ha
  split at ha
  · rename_i start g hg
    split at ha
    · rename_i ho
      cases ha
      subst ho
      exact ⟨_, hg, hd.position hg⟩
    · cases ha
  · cases ha

theorem contains_handleAt? (hd : d.Sound pool) {o : Nat} (ha : d.handleAt? o = some h) :
    d.instructions.contains h := by
  obtain ⟨n, -, hp⟩ := hd.position_handleAt? ha
  exact (split_of_position? hp).1

/-- An instruction that starts before an offset comes no later than the last one that does. -/
theorem spans (hd : d.Sound pool) {start stop : Nat} {first last : Handle}
    (hf : d.handleAt? start = some first) (hl : d.handleBefore? stop = some last)
    (hlt : start < stop) : d.instructions.Spans first last := by
  obtain ⟨n, hn, hp⟩ := hd.position_handleAt? hf
  unfold handleBefore? at hl
  split at hl
  · cases hl
  · rename_i m hm
    obtain ⟨⟨o, g⟩, hg, rfl⟩ := Option.map_eq_some_iff.mp hl
    refine ⟨n, m, hp, hd.position hg, ?_⟩
    have hb := (lt_lowerBound_iff hd.rising hn).mpr hlt
    omega

end DecodedCode.Sound

end Classfile
