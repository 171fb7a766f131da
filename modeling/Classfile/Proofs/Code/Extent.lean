import Classfile.Proofs.Binary.Takes
import Classfile.Proofs.Code.Acceptance
import Classfile.Proofs.Code.Decoded

/-!
How many bytes an instruction takes up that was read. It is never shorter than the form that would
be written for it at the same offset, and the next instruction is read from where it ends.
-/
namespace Classfile

namespace Reader

variable {α β : Type} {r : Reader α} {size : Nat}

/-- The reader takes so many bytes whenever it gives anything. -/
def Spends (r : Reader α) (size : Nat) : Prop := r.Takes fun piece _ => piece.length = size

theorem Spends.map {f : α → β} (h : r.Spends size) :
    Spends (r >>= fun a => pure (f a)) size :=
  Takes.map h fun _ _ hl => hl

theorem Spends.bind {f : α → Reader β} {more : Nat} (h : r.Spends size)
    (hf : ∀ a, (f a).Spends more) : (r >>= f).Spends (size + more) := by
  refine Takes.bind h fun piece a hl input b rest hb => ?_
  obtain ⟨back, hi, hm⟩ := hf a hb
  refine ⟨back, hi, ?_⟩
  dsimp only
  rw [List.length_append, hl, hm]

theorem spends_u8 : u8.Spends 1 := by
  intro input n rest h
  obtain ⟨piece, hi, rfl⟩ := takes_u8 h
  exact ⟨_, hi, rfl⟩

theorem spends_bytes (count : Nat) : (bytes count).Spends count := by
  intro input front rest h
  obtain ⟨piece, hi, rfl, hl⟩ := takes_bytes count h
  exact ⟨_, hi, hl⟩

theorem spends_i8 : i8.Spends 1 := spends_u8.map

theorem spends_u16 : u16.Spends 2 := (spends_bytes 2).map.map

theorem spends_i16 : i16.Spends 2 := spends_u16.map

theorem spends_i32 : i32.Spends 4 := (spends_bytes 4).map.map.map

theorem spends_index : ConstantIndex.read.Spends 2 := spends_u16.map

theorem Spends.times (h : r.Spends size) (count : Nat) : (times count r).Spends (count * size) := by
  intro input xs rest hx
  obtain ⟨piece, hi, pieces, new, rfl, -, hf, rfl⟩ := Takes.timesOnto h hx
  refine ⟨_, hi, ?_⟩
  clear hi hx
  induction hf with
  | nil => exact (Nat.zero_mul size).symm
  | cons hp _ ih =>
    dsimp only at ih ⊢
    rw [List.flatten_cons, List.length_append, hp, ih, List.length_cons, Nat.succ_mul, Nat.add_comm]

end Reader

namespace CodeReader

variable {α β : Type} {r : CodeReader α} {P : Nat → α → Prop} {Q : Nat → β → Prop} {a : α}
  {start size : Nat}

/-- The reader takes a beginning of the bytes and goes on by its length, which goes with what it
gives. -/
def Spends (r : CodeReader α) (P : Nat → α → Prop) : Prop :=
  ∀ ⦃c a c'⦄, r c = .ok (a, c') →
    ∃ piece, c.rest = piece ++ c'.rest ∧ c'.offset = c.offset + piece.length ∧ P piece.length a

theorem spends_pure (h : P 0 a) : (pure a : CodeReader α).Spends P := by
  intro c b c' hb
  cases hb
  exact ⟨[], rfl, rfl, h⟩

theorem Spends.mono {P' : Nat → α → Prop} (h : r.Spends P) (hp : ∀ n a, P n a → P' n a) :
    r.Spends P' := by
  intro c a c' hr
  obtain ⟨piece, hc, ho, ha⟩ := h hr
  exact ⟨piece, hc, ho, hp _ _ ha⟩

theorem Spends.bind {f : α → CodeReader β} (h : r.Spends P)
    (hf : ∀ n a, P n a → (f a).Spends fun m b => Q (n + m) b) : (r >>= f).Spends Q := by
  intro c b c' hb
  obtain ⟨⟨a, mid⟩, hr, hb⟩ := Except.bind_eq_ok.mp hb
  obtain ⟨piece, hc, ho, ha⟩ := h hr
  obtain ⟨more, hm, ho', hb⟩ := hf _ a ha hb
  refine ⟨piece ++ more, ?_, ?_, ?_⟩
  · rw [hc, hm, List.append_assoc]
  · rw [ho', ho, List.length_append, Nat.add_assoc]
  · rwa [List.length_append]

/-- A reader that always goes on by the same number of bytes, and another one after it. -/
theorem Spends.next {f : α → CodeReader β} (h : r.Spends fun n _ => n = size)
    (hf : ∀ a, (f a).Spends fun n b => Q (size + n) b) : (r >>= f).Spends Q := by
  refine h.bind fun n a hn => ?_
  rw [hn]
  exact hf a

theorem spends_part_of_ensures {r : Reader α} {P : α → Prop} (hr : r.Spends size)
    (hp : r.Ensures P) : (part start size r).Spends fun n a => n = size ∧ P a := by
  intro c a c' h
  unfold part at h
  split at h
  · rename_i ha
    cases h
    obtain ⟨piece, hc, rfl⟩ := hr ha
    exact ⟨piece, hc, rfl, rfl, hp ha⟩
  · cases h

theorem spends_part {r : Reader α} (hr : r.Spends size) :
    (part start size r).Spends fun n _ => n = size := by
  intro c a c' h
  obtain ⟨piece, hc, ho, hn, -⟩ := spends_part_of_ensures hr Reader.ensures_true h
  exact ⟨piece, hc, ho, hn⟩

theorem spends_flaw {f : CodeFlaw} : (flaw start f : CodeReader α).Spends P := by
  intro c a c' h
  cases h

theorem spends_flaw_bind {f : CodeFlaw} {g : α → CodeReader β} :
    (flaw start f >>= g).Spends Q := by
  intro c b c' h
  cases h

theorem spends_lift {x : Except Fault α} :
    (liftM x : CodeReader α).Spends fun n a => n = 0 ∧ x = .ok a := by
  intro c a c' h
  obtain ⟨b, hb, h⟩ := Except.bind_eq_ok.mp h
  cases h
  exact ⟨[], rfl, rfl, rfl, hb⟩

theorem spends_discard (h : r.Spends P) (hp : ∀ n a, P n a → n = size) :
    (discard r : CodeReader Unit).Spends fun n _ => n = size := by
  intro c u c' hu
  obtain ⟨⟨a, mid⟩, hr, hu⟩ := Except.bind_eq_ok.mp hu
  cases hu
  obtain ⟨piece, hc, ho, ha⟩ := h hr
  exact ⟨piece, hc, ho, hp _ _ ha⟩

theorem spends_remaining : remaining.Spends fun n _ => n = 0 := by
  intro c n c' h
  cases h
  exact ⟨[], rfl, rfl, rfl⟩

theorem spends_index {pool : ConstantPool} {role : Role} :
    (index start pool role).Spends fun n _ => n = 2 :=
  (spends_part Reader.spends_index).next fun _ => spends_lift.mono fun _ _ h => by rw [h.1]

end CodeReader

namespace Instruction

open CodeReader

variable {τ σ : Type} {pool : ConstantPool} {start size : Nat} {i : Instruction Int}

/-- The target that is stored in two bytes, if nothing is widened. -/
def narrowTarget? : Instruction τ → Option τ
  | branch _ target | jump _ target => some target
  | _ => none

/-- What is written for the instruction is not longer than what was read, and a target that was
given in two bytes is no farther away than these can say. -/
structure Fills (start size : Nat) (i : Instruction Int) : Prop where
  length : i.lengthAt start ≤ size
  near : ∀ target ∈ i.narrowTarget?, Near (target - start)

theorem fills_of_none (hl : i.lengthAt start ≤ size) (hn : i.narrowTarget? = none) :
    i.Fills start size := by
  refine ⟨hl, fun target ht => ?_⟩
  rw [hn] at ht
  cases ht

theorem spends_narrowTarget : (narrowTarget start).Spends fun n target =>
    n = 2 ∧ Near (target - start) := by
  refine (spends_part Reader.spends_i16).next fun d => spends_pure ⟨rfl, ?_⟩
  have hlow : -32768 ≤ d.toInt := Int16.le_toInt d
  have hhigh : d.toInt ≤ 32767 := Int16.toInt_le d
  unfold Near
  omega

theorem spends_wideTarget : (wideTarget start).Spends fun n _ => n = 4 :=
  (spends_part Reader.spends_i32).next fun _ => spends_pure rfl

/-- An instruction whose only operand is a slot is not longer than its wide form, and not longer
than two bytes if the slot fits in one. -/
structure NamesSlot (f : UInt16 → Instruction Int) : Prop where
  length : ∀ start slot, (f slot).lengthAt start ≤ if slot.toNat < 256 then 2 else 4
  none : ∀ slot, (f slot).narrowTarget? = none

theorem namesSlot_load (type : VariableType) : NamesSlot (load type) :=
  ⟨fun _ _ => by simp only [lengthAt]; grind, fun _ => rfl⟩

theorem namesSlot_store (type : VariableType) : NamesSlot (store type) :=
  ⟨fun _ _ => by simp only [lengthAt]; grind, fun _ => rfl⟩

theorem namesSlot_ret : NamesSlot ret := ⟨fun _ _ => Nat.le_refl _, fun _ => rfl⟩

variable {f : UInt16 → Instruction Int}

theorem NamesSlot.spends (hf : NamesSlot f) :
    (part start 1 Reader.u8 >>= fun byte => pure (f byte.toUInt16)).Spends fun n i =>
      i.Fills start (1 + n) := by
  refine (spends_part Reader.spends_u8).next fun byte => spends_pure (fills_of_none ?_ (hf.none _))
  have hb : byte.toUInt16.toNat < 256 := by
    rw [UInt8.toNat_toUInt16]
    exact byte.toNat_lt
  exact Nat.le_trans (hf.length start _) (Nat.le_of_eq (if_pos hb))

theorem NamesSlot.spends_wide (hf : NamesSlot f) :
    (part start 2 Reader.u16 >>= fun slot => pure (f slot)).Spends fun n i =>
      i.Fills start (1 + (1 + n)) := by
  refine (spends_part Reader.spends_u16).next fun slot => spends_pure (fills_of_none ?_ (hf.none _))
  refine Nat.le_trans (hf.length start slot) ?_
  split
  · decide
  · exact Nat.le_refl _

/-- The wide forms are the longest ones. -/
theorem spends_readWide : (readWide start).Spends fun n i => i.Fills start (1 + n) := by
  refine (spends_part Reader.spends_u8).next fun byte => ?_
  split
  · exact (namesSlot_load _).spends_wide
  · exact (namesSlot_store _).spends_wide
  · exact namesSlot_ret.spends_wide
  · refine (spends_part Reader.spends_u16).next fun slot => ?_
    refine (spends_part Reader.spends_i16).next fun amount => spends_pure (fills_of_none ?_ rfl)
    simp only [lengthAt]
    grind
  · exact spends_flaw

theorem spends_padding : (discard (part start (switchPadding start)
    (Reader.bytes (switchPadding start))) : CodeReader Unit).Spends fun n _ =>
      n = switchPadding start :=
  spends_discard (spends_part (Reader.spends_bytes _)) fun _ _ hn => hn

theorem spends_readTableSwitch : (readTableSwitch start).Spends fun n i =>
    i.Fills start (1 + n) := by
  refine spends_padding.next fun _ => spends_wideTarget.next fun _ => ?_
  refine (spends_part Reader.spends_i32).next fun low => ?_
  refine (spends_part Reader.spends_i32).next fun high => ?_
  split
  · exact spends_flaw_bind
  · refine spends_remaining.next fun _ => ?_
    split
    · exact spends_flaw_bind
    · refine (spends_part_of_ensures (Reader.spends_i32.times _)
        Reader.ensures_length_times).bind ?_
      rintro _ cases ⟨rfl, hl⟩
      refine spends_pure (fills_of_none ?_ rfl)
      simp only [lengthAt, List.length_map, hl]
      omega

theorem spends_readLookupSwitch : (readLookupSwitch start).Spends fun n i =>
    i.Fills start (1 + n) := by
  refine spends_padding.next fun _ => spends_wideTarget.next fun _ => ?_
  refine (spends_part Reader.spends_i32).next fun count => spends_remaining.next fun _ => ?_
  split
  · exact spends_flaw_bind
  · have hpair : (do return (← Reader.i32, ← Reader.i32) : Reader (Int32 × Int32)).Spends 8 :=
      Reader.spends_i32.bind fun _ => Reader.spends_i32.map
    refine (spends_part_of_ensures (hpair.times _) Reader.ensures_length_times).bind ?_
    rintro _ cases ⟨rfl, hl⟩
    refine spends_pure (fills_of_none ?_ rfl)
    simp only [lengthAt, List.length_map, hl]
    omega

theorem spends_readOperands (o : Opcode) :
    (readOperands pool start o).Spends fun n i => i.Fills start (1 + n) := by
  cases o with
  | simple op => exact spends_pure (fills_of_none (by simp [lengthAt]) rfl)
  | pushByte =>
    exact (spends_part Reader.spends_i8).next fun _ =>
      spends_pure (fills_of_none (by simp [lengthAt]) rfl)
  | pushShort =>
    exact (spends_part Reader.spends_i16).next fun _ =>
      spends_pure (fills_of_none (by simp [lengthAt]) rfl)
  | constant =>
    refine (spends_part Reader.spends_u8).next fun byte => spends_lift.bind ?_
    rintro _ index ⟨rfl, hi⟩
    obtain ⟨rfl, -⟩ := ConstantPool.checked_eq_ok.mp hi
    refine spends_pure (fills_of_none ?_ rfl)
    have hb := byte.toNat_lt
    simp only [lengthAt, UInt8.toNat_toUInt16]
    grind
  | wideConstant =>
    exact spends_index.next fun _ => spends_pure (fills_of_none (by simp [lengthAt]) rfl)
  | load type => exact (namesSlot_load type).spends
  | store type => exact (namesSlot_store type).spends
  | increment =>
    refine (spends_part Reader.spends_u8).next fun slot => ?_
    refine (spends_part Reader.spends_i8).next fun amount => spends_pure (fills_of_none ?_ rfl)
    have hs := slot.toNat_lt
    have hlow : -128 ≤ amount.toInt := Int8.le_toInt amount
    have hhigh : amount.toInt ≤ 127 := Int8.toInt_le amount
    simp only [lengthAt, UInt8.toNat_toUInt16, Int8.toInt_toInt16]
    grind
  | branch condition =>
    refine spends_narrowTarget.bind ?_
    rintro _ target ⟨rfl, hn⟩
    exact spends_pure ⟨by simp [lengthAt], by simpa [narrowTarget?] using hn⟩
  | jump kind =>
    refine spends_narrowTarget.bind ?_
    rintro _ target ⟨rfl, hn⟩
    exact spends_pure ⟨by simp [lengthAt], by simpa [narrowTarget?] using hn⟩
  | ret => exact namesSlot_ret.spends
  | tableSwitch => exact spends_readTableSwitch
  | lookupSwitch => exact spends_readLookupSwitch
  | field access =>
    exact spends_index.next fun _ => spends_pure (fills_of_none (by simp [lengthAt]) rfl)
  | invoke mode =>
    exact spends_index.next fun _ => spends_pure (fills_of_none (by simp [lengthAt]) rfl)
  | invokeInterface =>
    exact spends_index.next fun _ => (spends_part Reader.spends_u8).next fun _ =>
      (spends_discard (spends_part Reader.spends_u8) fun _ _ hn => hn).next fun _ =>
        spends_pure (fills_of_none (by simp [lengthAt]) rfl)
  | invokeDynamic =>
    exact (spends_part Reader.spends_index).next fun _ =>
      (spends_discard (spends_part Reader.spends_u16) fun _ _ hn => hn).next fun _ =>
        (spends_lift.mono fun _ _ h => h.1).next fun _ =>
          spends_pure (fills_of_none (by simp [lengthAt]) rfl)
  | typeOp operation =>
    exact spends_index.next fun _ => spends_pure (fills_of_none (by simp [lengthAt]) rfl)
  | newArray =>
    refine (spends_part Reader.spends_u8).next fun code => ?_
    split
    · exact spends_pure (fills_of_none (by simp [lengthAt]) rfl)
    · exact spends_flaw
  | multiNewArray =>
    exact spends_index.next fun _ => (spends_part Reader.spends_u8).next fun _ =>
      spends_pure (fills_of_none (by simp [lengthAt]) rfl)
  | wideJump kind =>
    exact spends_wideTarget.next fun _ => spends_pure (fills_of_none (by simp [lengthAt]) rfl)

theorem fills_ofShortByte? {byte : UInt8} (h : ofShortByte? byte = some i) : i.Fills start 1 := by
  have hslot : ∀ n : UInt8, (n % 4).toUInt16.toNat < 4 := by
    intro n
    rw [UInt8.toNat_toUInt16, UInt8.toNat_mod]
    exact Nat.mod_lt _ (by decide)
  unfold ofShortByte? at h
  split at h
  · obtain ⟨type, -, h⟩ := Option.bind_eq_some_iff.mp h
    cases h
    exact fills_of_none (Nat.le_of_eq (if_pos (hslot _))) rfl
  · split at h
    · obtain ⟨type, -, h⟩ := Option.bind_eq_some_iff.mp h
      cases h
      exact fills_of_none (Nat.le_of_eq (if_pos (hslot _))) rfl
    · cases h

theorem spends_read : (read pool start).Spends fun n i => i.Fills start n := by
  refine (spends_part Reader.spends_u8).next fun byte => ?_
  split
  · exact spends_readWide
  · split
    · refine spends_index.next fun index => spends_pure (fills_of_none ?_ rfl)
      simp only [lengthAt]
      grind
    · split
      · exact spends_pure (fills_ofShortByte? ‹_›)
      · split
        · exact spends_readOperands _
        · exact spends_flaw

/-- The piece that an instruction is read from has a byte at least. -/
theorem fills_of_read {offset : Nat} {i : Instruction Int} {piece bytes : List UInt8}
    (h : read pool offset ⟨offset, piece ++ bytes⟩ = .ok (i, ⟨offset + piece.length, bytes⟩)) :
    i.Fills offset piece.length ∧ 0 < piece.length := by
  obtain ⟨taken, hrest, -, hfills⟩ := spends_read h
  cases List.append_cancel_right hrest
  exact ⟨hfills, Nat.lt_of_lt_of_le (Layout.lengthAt_pos i) hfills.length⟩

/-! ### All instructions of some code -/

/-- The instructions are read one behind the other, each from where the one before it ends, until no
bytes are left. -/
inductive Reads (pool : ConstantPool) : Nat → List UInt8 → List (Nat × Instruction Int) → Prop
  | nil {offset : Nat} : Reads pool offset [] []
  | cons {offset : Nat} {i : Instruction Int} {piece bytes : List UInt8}
    {items : List (Nat × Instruction Int)}
    (hr : read pool offset ⟨offset, piece ++ bytes⟩ = .ok (i, ⟨offset + piece.length, bytes⟩))
    (hs : Reads pool (offset + piece.length) bytes items) :
    Reads pool offset (piece ++ bytes) ((offset, i) :: items)

theorem reads_readAllOnto {fuel : Nat} {done items : List (Nat × Instruction Int)} {c : CodeCursor}
    (h : readAllOnto pool done fuel c = .ok items) (hf : c.rest.length ≤ fuel) :
    ∃ new, items = done.reverse ++ new ∧ Reads pool c.offset c.rest new := by
  obtain ⟨offset, rest⟩ := c
  induction fuel generalizing done offset rest with
  | zero =>
    cases h
    cases List.length_eq_zero_iff.mp (Nat.le_zero.mp hf)
    exact ⟨[], (List.append_nil _).symm, .nil⟩
  | succ fuel ih =>
    unfold readAllOnto at h
    split at h
    · rename_i he
      cases h
      cases List.isEmpty_iff.mp he
      exact ⟨[], (List.append_nil _).symm, .nil⟩
    · split at h
      · rename_i i next hr
        obtain ⟨next, rest'⟩ := next
        obtain ⟨piece, hrest, hnext, hfills⟩ := spends_read hr
        dsimp only at hrest hnext hf
        subst hrest hnext
        -- The instruction takes a byte at least, so that the rest is shorter.
        have hpos : 0 < piece.length := Nat.lt_of_lt_of_le (Layout.lengthAt_pos i) hfills.length
        rw [List.length_append] at hf
        obtain ⟨new, rfl, hnew⟩ := ih _ _ h (by dsimp only; omega)
        exact ⟨(offset, i) :: new, by simp, .cons hr hnew⟩
      · cases h

theorem reads_readAll {code : List UInt8} {items : List (Nat × Instruction Int)}
    (h : readAll pool code = .ok items) : Reads pool 0 code items := by
  obtain ⟨new, rfl, hnew⟩ := reads_readAllOnto h (Nat.le_refl _)
  exact hnew

/-- The bytes that are left begin where the next instruction does, or none are left. -/
theorem Reads.next {offset : Nat} {bytes : List UInt8} {items : List (Nat × Instruction Int)}
    (h : Reads pool offset bytes items) :
    (items[0]?.map (·.1)).getD (offset + bytes.length) = offset := by
  cases h with
  | nil => rfl
  | cons => rfl

/-- An instruction fills the bytes up to the next one, or up to the end. -/
theorem Reads.fills {offset n : Nat} {bytes : List UInt8} {items : List (Nat × Instruction Int)}
    (h : Reads pool offset bytes items) (hn : items[n]? = some (start, i)) :
    ∃ size, (items[n + 1]?.map (·.1)).getD (offset + bytes.length) = start + size ∧
      i.Fills start size := by
  induction h generalizing n with
  | nil => cases hn
  | @cons offset j piece bytes items hr hs ih =>
    cases n with
    | zero =>
      cases hn
      refine ⟨piece.length, ?_, (fills_of_read hr).1⟩
      rw [List.getElem?_cons_succ, List.length_append, ← Nat.add_assoc]
      exact hs.next
    | succ n =>
      obtain ⟨size, hsize, hfills⟩ := ih hn
      refine ⟨size, ?_, hfills⟩
      rw [← hsize, List.getElem?_cons_succ, List.length_append, Nat.add_assoc]

end Instruction

end Classfile
