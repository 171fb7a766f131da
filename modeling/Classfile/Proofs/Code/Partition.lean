import Classfile.Proofs.Code.Extent
import Classfile.Proofs.Code.Landing

/-!
The offsets of code that was read. They divide the code: every instruction was read from the bytes
between its offset and the next one, and the last one from those up to the end. An offset leads to
the instruction that starts there, and to the last one that starts before it.
-/
namespace Classfile

open InstructionSeq

variable {pool : ConstantPool} {code : List UInt8} {d : DecodedCode} {h : Handle}
  {start stop o n : Nat}

namespace Instruction

variable {i j : Instruction Int} {offset : Nat} {front piece bytes : List UInt8}
  {items : List (Nat × Instruction Int)}

/-- Reading from the start gives the instruction, and leaves the code from the stop on. -/
structure Occupies (pool : ConstantPool) (code : List UInt8) (start stop : Nat)
    (i : Instruction Int) : Prop where
  lt : start < stop
  le : stop ≤ code.length
  read : Instruction.read pool start ⟨start, code.drop start⟩ = .ok (i, ⟨stop, code.drop stop⟩)

theorem Reads.occupies (h : Reads pool offset bytes items) (hf : front.length = offset)
    (hn : items[n]? = some (start, i)) : Occupies pool (front ++ bytes) start
      ((items[n + 1]?.map (·.1)).getD (front ++ bytes).length) i := by
  -- what was read already stands in front, so that offsets count from the start of the code
  induction h generalizing n front with
  | nil => cases hn
  | @cons offset j piece bytes items hr hs ih =>
    rw [← List.append_assoc]
    cases n with
    | zero =>
      cases hn
      have hstop := hs.next
      have hl : (front ++ piece ++ bytes).length = start + piece.length + bytes.length := by
        rw [List.length_append, List.length_append, hf]
      rw [List.getElem?_cons_succ, hl, hstop]
      have hfront : (front ++ piece ++ bytes).drop start = piece ++ bytes := by
        rw [List.append_assoc, List.drop_left' hf]
      have hrest : (front ++ piece ++ bytes).drop (start + piece.length) = bytes :=
        List.drop_left' (by rw [List.length_append, hf])
      refine ⟨Nat.lt_add_of_pos_right (fills_of_read hr).2, by omega, ?_⟩
      rw [hfront, hrest]
      exact hr
    | succ n =>
      exact ih (by rw [List.length_append, hf]) hn

end Instruction

namespace DecodedCode

/-- The offsets are in the order of the instructions and divide the code among them. -/
structure Partitions (pool : ConstantPool) (code : List UInt8) (d : DecodedCode) : Prop where
  handles : d.offsets.toList.map (·.2) = d.instructions.handles
  first : code ≠ [] → ∃ h, d.offsets[0]? = some (0, h)
  rising : d.offsets.toList.Pairwise fun x y => x.1 < y.1
  /-- Every instruction, but for its targets, is what was read up to where the next one starts. -/
  occupies : ∀ n start h, d.offsets[n]? = some (start, h) →
    ∃ (i : Instruction Handle) (j : Instruction Int),
      d.instructions.toList[n]? = some (h, i) ∧
      j.Occupies pool code start (d.startAt code.length (n + 1)) ∧
      j.resolve (resolveTarget d.offsets start) = .ok i

theorem partitions_decodeCode (hd : decodeCode pool code = .ok d) : d.Partitions pool code where
  handles := offsets_map_snd hd
  first := by
    intro hne
    obtain ⟨items, instructions, hread, -, rfl⟩ := decodeCode_eq_ok.mp hd
    cases Instruction.reads_readAll hread with
    | nil => exact absurd rfl hne
    | cons => exact ⟨_, rfl⟩
  rising := by
    obtain ⟨items, instructions, hread, -, rfl⟩ := decodeCode_eq_ok.mp hd
    exact rising_startsOf hread
  occupies := by
    intro n start h hn
    obtain ⟨i, hi⟩ := exists_instruction hd hn
    obtain ⟨items, start', j, hread, hj, hn', hstarts, hr⟩ := exists_item hd hi
    cases hn.symm.trans hn'
    have ho := (Instruction.reads_readAll hread).occupies List.length_nil hj
    rw [List.nil_append, ← startsOf_map_fst, ← hstarts] at ho
    exact ⟨i, j, hi, ho, hr⟩

/-! ### Looking offsets up -/

theorem handleBefore?_of_forall (ha : ∀ x ∈ d.offsets.toList, o ≤ x.1) :
    d.handleBefore? o = none := by
  rw [handleBefore?, lowerBound_eq (List.nil_append _).symm nofun ha]
  rfl

variable (hr : d.offsets.toList.Pairwise fun x y => x.1 < y.1)
include hr

theorem handleAt?_eq_some : d.handleAt? o = some h ↔ (o, h) ∈ d.offsets.toList :=
  ⟨mem_of_handleAtOffset?, ArenaM.handleAtOffset?_of_mem hr⟩

theorem handleAt?_eq_none : d.handleAt? o = none ↔ ∀ h, (o, h) ∉ d.offsets.toList := by
  rw [Option.eq_none_iff_forall_ne_some]
  exact forall_congr' fun h => not_congr (handleAt?_eq_some hr)

theorem handleBefore?_of_split {before after : List (Nat × Handle)}
    (hl : d.offsets.toList = before ++ (start, h) :: after) (hs : start < o)
    (ha : ∀ x ∈ after, o ≤ x.1) : d.handleBefore? o = some h := by
  have hb : ∀ x ∈ before ++ [(start, h)], x.1 < o := by
    rw [hl, List.pairwise_append] at hr
    intro x hx
    rcases List.mem_append.mp hx with hx | hx
    · exact Nat.lt_trans (hr.2.2 x hx _ List.mem_cons_self) hs
    · cases List.mem_singleton.mp hx
      exact hs
  have hl' : d.offsets.toList = (before ++ [(start, h)]) ++ after := by
    rw [hl, List.append_assoc, List.singleton_append]
  have hlast : d.offsets[before.length]? = some (start, h) := by
    rw [← Array.getElem?_toList, hl, List.getElem?_append_right (Nat.le_refl _), Nat.sub_self]
    rfl
  rw [handleBefore?, lowerBound_eq hl' hb ha, List.length_append, List.length_singleton]
  simp only [hlast]
  rfl

/-- Either nothing starts before the offset, or there is a last instruction that does. -/
theorem before_cases (o : Nat) : (∀ x ∈ d.offsets.toList, o ≤ x.1) ∨ ∃ before start h after,
    d.offsets.toList = before ++ (start, h) :: after ∧ start < o ∧ ∀ x ∈ after, o ≤ x.1 := by
  obtain ⟨xs, after, hl, hx, ha⟩ := exists_split_of_rising hr o
  rcases List.eq_nil_or_concat xs with rfl | ⟨before, ⟨start, h⟩, rfl⟩
  · left
    rw [hl]
    exact ha
  · right
    rw [List.concat_eq_append, List.append_assoc, List.singleton_append] at hl
    exact ⟨before, start, h, after, hl, hx (start, h) (by simp), ha⟩

theorem handleBefore?_eq_none : d.handleBefore? o = none ↔ ∀ x ∈ d.offsets.toList, o ≤ x.1 := by
  constructor
  · intro hn
    rcases before_cases hr o with hall | ⟨before, start, h, after, hl, hs, ha⟩
    · exact hall
    · cases (handleBefore?_of_split hr hl hs ha).symm.trans hn
  · intro hall
    exact handleBefore?_of_forall hall

theorem handleBefore?_eq_some : d.handleBefore? o = some h ↔ ∃ before start after,
    d.offsets.toList = before ++ (start, h) :: after ∧ start < o ∧ ∀ x ∈ after, o ≤ x.1 := by
  constructor
  · intro hh
    rcases before_cases hr o with hall | ⟨before, start, h', after, hl, hs, ha⟩
    · cases (handleBefore?_of_forall hall).symm.trans hh
    · cases (handleBefore?_of_split hr hl hs ha).symm.trans hh
      exact ⟨before, start, after, hl, hs, ha⟩
  · rintro ⟨before, start, after, hl, hs, ha⟩
    exact handleBefore?_of_split hr hl hs ha

end DecodedCode

/-- The offsets of code that was read divide it among the instructions. Whatever the offset, it
leads to the instruction that starts there, if one does, and to the last one that starts before it,
if there is one. -/
theorem decodeCode_partitions (hd : decodeCode pool code = .ok d) :
    d.Partitions pool code ∧
    (∀ o h, d.handleAt? o = some h ↔ (o, h) ∈ d.offsets.toList) ∧
    (∀ o, d.handleAt? o = none ↔ ∀ h, (o, h) ∉ d.offsets.toList) ∧
    (∀ o h, d.handleBefore? o = some h ↔ ∃ before start after,
      d.offsets.toList = before ++ (start, h) :: after ∧ start < o ∧ ∀ x ∈ after, o ≤ x.1) ∧
    ∀ o, d.handleBefore? o = none ↔ ∀ x ∈ d.offsets.toList, o ≤ x.1 := by
  have hp := DecodedCode.partitions_decodeCode hd
  exact ⟨hp, fun _ _ => DecodedCode.handleAt?_eq_some hp.rising,
    fun _ => DecodedCode.handleAt?_eq_none hp.rising,
    fun _ _ => DecodedCode.handleBefore?_eq_some hp.rising,
    fun _ => DecodedCode.handleBefore?_eq_none hp.rising⟩

/-- Loads of the variable 256, which takes four bytes, and of the number 5, and a return. -/
def wideThenByte : List UInt8 := [0xc4, 0x15, 0x01, 0x00, 0x10, 0x05, 0xb1]

theorem decodeCode_partitions_wideThenByte : ∃ d, decodeCode .empty wideThenByte = .ok d ∧
    d.startAt wideThenByte.length 1 = 4 ∧ d.startAt wideThenByte.length 3 = 7 ∧
    d.handleAt? 4 = some ⟨1, 0⟩ ∧ d.handleAt? 5 = none ∧ d.handleBefore? 4 = some ⟨0, 0⟩ ∧
    d.handleBefore? 100000 = some ⟨2, 0⟩ ∧ d.handleBefore? 0 = none := by
  have hd : decodeCode .empty wideThenByte = .ok
      ⟨ofList [.load .int 256, .pushByte 5, .simple .returnVoid],
        #[(0, ⟨0, 0⟩), (4, ⟨1, 0⟩), (6, ⟨2, 0⟩)]⟩ := rfl
  obtain ⟨-, hat, hnotAt, hbefore, hnotBefore⟩ := decodeCode_partitions hd
  refine ⟨_, hd, rfl, rfl, (hat _ _).mpr (by simp), (hnotAt _).mpr (by simp), ?_, ?_, ?_⟩
  · exact (hbefore _ _).mpr ⟨[], 0, _, rfl, by decide, by simp⟩
  · exact (hbefore _ _).mpr ⟨[(0, ⟨0, 0⟩), (4, ⟨1, 0⟩)], 6, [], rfl, by decide, nofun⟩
  · exact (hnotBefore _).mpr (by simp)

end Classfile
