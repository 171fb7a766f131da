import Classfile.Proofs.Code.Extent

/-!
Where the jumps of some code go, read off its bytes without reading the instructions. Every jump is
stored by its distance, in two bytes or in four; a switch stores its default in front of its cases.
What the instructions that are read have for targets is what is stored, in this order.
-/
namespace Classfile

namespace BigEndian

/-- The number with a sign that begins some bytes. -/
def signed (width : Nat) (bytes : List UInt8) : Int :=
  (unpack (bytes.take width) : Int).bmod (256 ^ width)

end BigEndian

/-- How an instruction stores where it jumps. -/
inductive JumpForm
  | none
  | narrow
  | wide
  | table
  | lookup
  deriving DecidableEq

namespace JumpForm

open BigEndian

def ofByte (byte : UInt8) : JumpForm :=
  let n := byte.toNat
  if (0x99 ≤ n ∧ n ≤ 0xa8) ∨ n = 0xc6 ∨ n = 0xc7 then narrow
  else if n = 0xc8 ∨ n = 0xc9 then wide
  else if n = 0xaa then table
  else if n = 0xab then lookup
  else none

/-- The distances that the operands hold, of an instruction that starts at an offset. -/
def distances (start : Nat) (operands : List UInt8) : JumpForm → List Int
  | none => []
  | narrow => [signed 2 operands]
  | wide => [signed 4 operands]
  | table =>
    let fields := operands.drop (Instruction.switchPadding start)
    let count := signed 4 (fields.drop 8) - signed 4 (fields.drop 4) + 1
    signed 4 fields ::
      (List.range count.toNat).map fun k => signed 4 (fields.drop (12 + 4 * k))
  | lookup =>
    let fields := operands.drop (Instruction.switchPadding start)
    let count := signed 4 (fields.drop 4)
    signed 4 fields ::
      (List.range count.toNat).map fun k => signed 4 (fields.drop (12 + 8 * k))

theorem ofByte_of_lt {byte : UInt8} (h : byte.toNat < 0x99) : ofByte byte = none := by
  simp only [ofByte]
  grind

end JumpForm

/-- Where the instruction jumps to that starts at an offset and with some bytes. -/
def storedJumps (start : Nat) : List UInt8 → List Int
  | [] => []
  | byte :: operands =>
    ((JumpForm.ofByte byte).distances start operands).map fun d => (start : Int) + d

/-- How the opcode stores where it jumps. -/
def Opcode.jumpForm : Opcode → JumpForm
  | branch _ | jump _ => .narrow
  | wideJump _ => .wide
  | tableSwitch => .table
  | lookupSwitch => .lookup
  | _ => .none

theorem Opcode.ofByte_byte (o : Opcode) : JumpForm.ofByte o.byte = o.jumpForm := by
  have h : ∀ o ∈ all, JumpForm.ofByte o.byte = o.jumpForm := by decide +kernel
  exact h o (mem_all o)

namespace Reader

open BigEndian

variable {α β : Type} {r : Reader α} {input : List UInt8} {P : α → List UInt8 → Prop}
  {Q : β → List UInt8 → Prop}

/-- Whatever the reader gives for the input goes with what it leaves of it. -/
def Finds (r : Reader α) (input : List UInt8) (P : α → List UInt8 → Prop) : Prop :=
  ∀ ⦃a rest⦄, r input = .ok (a, rest) → P a rest

theorem Finds.bind {f : α → Reader β} (h : r.Finds input P)
    (hf : ∀ a rest, P a rest → (f a).Finds rest Q) : (r >>= f).Finds input Q := by
  intro b rest hb
  change Reader.bind r f input = .ok (b, rest) at hb
  unfold Reader.bind at hb
  split at hb
  · rename_i a mid hr
    exact hf a mid (h hr) hb
  · cases hb

theorem Finds.map {f : α → β} (h : r.Finds input P) (hf : ∀ a rest, P a rest → Q (f a) rest) :
    (r >>= fun a => pure (f a)).Finds input Q := by
  refine h.bind fun a rest ha b rest' hb => ?_
  cases hb
  exact hf a rest ha

theorem finds_u8 : u8.Finds input fun byte rest => input = byte :: rest := by
  intro byte rest h
  obtain ⟨piece, hi, rfl⟩ := takes_u8 h
  exact hi

theorem finds_bytes (count : Nat) : (bytes count).Finds input fun front rest =>
    front = input.take count ∧ rest = input.drop count := by
  intro front rest h
  obtain ⟨piece, rfl, rfl, rfl⟩ := takes_bytes count h
  simp

theorem finds_number (width : Nat) : (number width).Finds input fun n rest =>
    n = unpack (input.take width) ∧ rest = input.drop width := by
  refine (finds_bytes width).map ?_
  rintro _ rest ⟨rfl, hr⟩
  exact ⟨rfl, hr⟩

theorem finds_u16 : u16.Finds input fun n rest =>
    n = UInt16.ofNat (unpack (input.take 2)) ∧ rest = input.drop 2 := by
  refine (finds_number 2).map ?_
  rintro _ rest ⟨rfl, hr⟩
  exact ⟨rfl, hr⟩

theorem finds_u32 : u32.Finds input fun n rest =>
    n = UInt32.ofNat (unpack (input.take 4)) ∧ rest = input.drop 4 := by
  refine (finds_number 4).map ?_
  rintro _ rest ⟨rfl, hr⟩
  exact ⟨rfl, hr⟩

theorem finds_i16 : i16.Finds input fun n rest =>
    n.toInt = signed 2 input ∧ rest = input.drop 2 := by
  refine finds_u16.map ?_
  rintro _ rest ⟨rfl, hr⟩
  rw [UInt16.toInt16_ofNat', Int16.toInt_ofNat']
  exact ⟨rfl, hr⟩

theorem finds_i32 : i32.Finds input fun n rest =>
    n.toInt = signed 4 input ∧ rest = input.drop 4 := by
  refine finds_u32.map ?_
  rintro _ rest ⟨rfl, hr⟩
  rw [UInt32.toInt32_ofNat', Int32.toInt_ofNat']
  exact ⟨rfl, hr⟩

/-- A reader that always takes as many bytes finds its values at equal distances. -/
theorem finds_times {f : α → β} {g : List UInt8 → β} {size : Nat}
    (h : ∀ input, r.Finds input fun a rest => f a = g input ∧ rest = input.drop size)
    (count : Nat) : (times count r).Finds input fun as _ =>
      as.map f = (List.range count).map fun k => g (input.drop (size * k)) := by
  have honto : ∀ done, (timesOnto r done count).Finds input fun as _ =>
      as.map f = done.reverse.map f ++
        (List.range count).map fun k => g (input.drop (size * k)) := by
    -- After one value the next ones are at the same distances from the input that is left.
    induction count generalizing input with
    | zero =>
      intro done as rest hr
      cases hr
      simp
    | succ count ih =>
      intro done as rest hr
      unfold timesOnto at hr
      split at hr
      · rename_i a mid ha
        obtain ⟨hf, rfl⟩ := h input ha
        rw [ih (a :: done) hr, List.range_succ_eq_map, List.map_cons, List.map_map,
          List.reverse_cons, List.map_append, List.append_assoc]
        simp [Function.comp_def, hf, Nat.mul_succ, Nat.add_comm]
      · cases hr
  exact honto []

end Reader

namespace CodeReader

open BigEndian

variable {α β : Type} {r : CodeReader α} {bytes : List UInt8} {P : α → List UInt8 → Prop}
  {Q : β → List UInt8 → Prop} {a : α} {start size : Nat}

/-- Whatever the reader gives, if some bytes are still to be read, goes with what it leaves of
them. -/
def Finds (r : CodeReader α) (bytes : List UInt8) (P : α → List UInt8 → Prop) : Prop :=
  ∀ ⦃offset a c⦄, r ⟨offset, bytes⟩ = .ok (a, c) → P a c.rest

theorem finds_pure (h : P a bytes) : (pure a : CodeReader α).Finds bytes P := by
  intro offset b c hb
  cases hb
  exact h

theorem Finds.bind {f : α → CodeReader β} (h : r.Finds bytes P)
    (hf : ∀ a rest, P a rest → (f a).Finds rest Q) : (r >>= f).Finds bytes Q := by
  intro offset b c hb
  obtain ⟨⟨a, mid⟩, hr, hb⟩ := Except.bind_eq_ok.mp hb
  exact hf a mid.rest (h hr) hb

theorem finds_part {r : Reader α} (h : r.Finds bytes P) : (part start size r).Finds bytes P := by
  intro offset a c hr
  unfold part at hr
  split at hr
  · rename_i ha
    cases hr
    exact h ha
  · cases hr

theorem finds_flaw {f : CodeFlaw} : (flaw start f : CodeReader α).Finds bytes P := by
  intro offset a c h
  cases h

theorem finds_flaw_bind {f : CodeFlaw} {g : α → CodeReader β} :
    (flaw start f >>= g).Finds bytes Q := by
  intro offset b c h
  cases h

theorem finds_of_gives {P : α → Prop} (h : r.Gives P) : r.Finds bytes fun a _ => P a := by
  intro offset a c hr
  exact (h hr).2

theorem finds_remaining : remaining.Finds bytes fun _ rest => rest = bytes := by
  intro offset n c h
  cases h
  rfl

theorem finds_narrowTarget : (narrowTarget start).Finds bytes fun target _ =>
    target = start + signed 2 bytes := by
  refine (finds_part Reader.finds_i16).bind ?_
  rintro d _ ⟨hd, -⟩
  exact finds_pure (by rw [hd])

theorem finds_wideTarget : (wideTarget start).Finds bytes fun target rest =>
    target = start + signed 4 bytes ∧ rest = bytes.drop 4 := by
  refine (finds_part Reader.finds_i32).bind ?_
  rintro d _ ⟨hd, rfl⟩
  exact finds_pure ⟨by rw [hd], rfl⟩

theorem finds_padding (count : Nat) : (discard (part start count (Reader.bytes count)) :
    CodeReader Unit).Finds bytes fun _ rest => rest = bytes.drop count := by
  intro offset u c hu
  obtain ⟨⟨front, mid⟩, hr, hu⟩ := Except.bind_eq_ok.mp hu
  cases hu
  exact (finds_part (Reader.finds_bytes count) hr).2

end CodeReader

namespace Instruction

open CodeReader

variable {pool : ConstantPool} {start : Nat} {bytes : List UInt8} {i : Instruction Int}

/-- What the instruction has for targets is what its operands store. -/
def Jumps (form : JumpForm) (start : Nat) (operands : List UInt8) (i : Instruction Int) : Prop :=
  i.targets = (form.distances start operands).map fun d => (start : Int) + d

theorem finds_readTableSwitch : (readTableSwitch start).Finds bytes fun i _ =>
    i.Jumps .table start bytes := by
  refine (finds_padding _).bind ?_
  rintro _ fields hfields
  refine finds_wideTarget.bind ?_
  rintro default _ ⟨hdefault, rfl⟩
  refine (finds_part Reader.finds_i32).bind ?_
  rintro low _ ⟨hlow, rfl⟩
  refine (finds_part Reader.finds_i32).bind ?_
  rintro high _ ⟨hhigh, rfl⟩
  split
  · exact finds_flaw_bind
  · refine finds_remaining.bind ?_
    rintro n _ rfl
    split
    · exact finds_flaw_bind
    · refine (finds_part (Reader.finds_times (fun _ => Reader.finds_i32) _)).bind ?_
      intro cases rest hcases
      simp only [List.drop_drop, Nat.reduceAdd] at hhigh hcases
      refine finds_pure ?_
      rw [Jumps, targets, JumpForm.distances, ← hfields, ← hlow, ← hhigh, ← hcases, List.map_cons,
        List.map_map, hdefault]
      rfl

theorem finds_readLookupSwitch : (readLookupSwitch start).Finds bytes fun i _ =>
    i.Jumps .lookup start bytes := by
  refine (finds_padding _).bind ?_
  rintro _ fields hfields
  refine finds_wideTarget.bind ?_
  rintro default _ ⟨hdefault, rfl⟩
  refine (finds_part Reader.finds_i32).bind ?_
  rintro count _ ⟨hcount, rfl⟩
  refine finds_remaining.bind ?_
  rintro n _ rfl
  split
  · exact finds_flaw_bind
  · have hpair : ∀ input, Reader.Finds (do return (← Reader.i32, ← Reader.i32)) input
        fun pair rest => pair.2.toInt = BigEndian.signed 4 (input.drop 4) ∧
          rest = input.drop 8 := by
      intro input
      refine Reader.finds_i32.bind ?_
      rintro key _ ⟨-, rfl⟩
      refine Reader.finds_i32.map ?_
      rintro d _ ⟨hd, rfl⟩
      exact ⟨hd, List.drop_drop⟩
    refine (finds_part (Reader.finds_times hpair _)).bind ?_
    intro cases rest hcases
    have hplace : ∀ k, 8 + 8 * k + 4 = 12 + 8 * k := by omega
    simp only [List.drop_drop, Nat.reduceAdd, hplace] at hcases
    refine finds_pure ?_
    rw [Jumps, targets, JumpForm.distances, ← hfields, ← hcount, ← hcases, List.map_cons,
      List.map_map, List.map_map, hdefault]
    rfl

theorem finds_readOperands (o : Opcode) : (readOperands pool start o).Finds bytes fun i _ =>
    i.Jumps o.jumpForm start bytes := by
  cases o with
  | branch condition =>
    exact finds_narrowTarget.bind fun _ _ ht => finds_pure (by rw [Jumps, targets, ht]; rfl)
  | jump kind =>
    exact finds_narrowTarget.bind fun _ _ ht => finds_pure (by rw [Jumps, targets, ht]; rfl)
  | wideJump kind =>
    exact finds_wideTarget.bind fun _ _ ht => finds_pure (by rw [Jumps, targets, ht.1]; rfl)
  | tableSwitch => exact finds_readTableSwitch
  | lookupSwitch => exact finds_readLookupSwitch
  | simple op => exact finds_pure rfl
  | pushByte => exact finds_of_gives (gives_part.bind fun _ _ => gives_pure rfl)
  | pushShort => exact finds_of_gives (gives_part.bind fun _ _ => gives_pure rfl)
  | constant =>
    exact finds_of_gives (gives_part.bind fun _ _ => gives_lift.bind fun _ _ => gives_pure rfl)
  | wideConstant => exact finds_of_gives (gives_index.bind fun _ _ => gives_pure rfl)
  | load type => exact finds_of_gives (gives_part.bind fun _ _ => gives_pure rfl)
  | store type => exact finds_of_gives (gives_part.bind fun _ _ => gives_pure rfl)
  | increment =>
    exact finds_of_gives (gives_part.bind fun _ _ => gives_part.bind fun _ _ => gives_pure rfl)
  | ret => exact finds_of_gives (gives_part.bind fun _ _ => gives_pure rfl)
  | field access => exact finds_of_gives (gives_index.bind fun _ _ => gives_pure rfl)
  | invoke mode => exact finds_of_gives (gives_index.bind fun _ _ => gives_pure rfl)
  | invokeInterface =>
    exact finds_of_gives (gives_index.bind fun _ _ => gives_part.bind fun _ _ =>
      (gives_discard gives_part).bind fun _ _ => gives_pure rfl)
  | invokeDynamic =>
    exact finds_of_gives (gives_part.bind fun _ _ => (gives_discard gives_part).bind fun _ _ =>
      gives_lift.bind fun _ _ => gives_pure rfl)
  | typeOp operation => exact finds_of_gives (gives_index.bind fun _ _ => gives_pure rfl)
  | newArray =>
    refine finds_of_gives (gives_part.bind fun code _ => ?_)
    split
    · exact gives_pure rfl
    · exact gives_flaw
  | multiNewArray =>
    exact finds_of_gives (gives_index.bind fun _ _ => gives_part.bind fun _ _ => gives_pure rfl)

theorem targets_ofShortByte? {byte : UInt8} (h : ofShortByte? byte = some i) :
    byte.toNat < 0x99 ∧ i.targets = [] := by
  unfold ofShortByte? at h
  split at h
  · rename_i hb
    obtain ⟨type, -, h⟩ := Option.bind_eq_some_iff.mp h
    cases h
    exact ⟨Nat.lt_trans (UInt8.lt_iff_toNat_lt.mp hb.2) (by decide), rfl⟩
  · split at h
    · rename_i hb
      obtain ⟨type, -, h⟩ := Option.bind_eq_some_iff.mp h
      cases h
      exact ⟨Nat.lt_trans (UInt8.lt_iff_toNat_lt.mp hb.2) (by decide), rfl⟩
    · cases h

theorem gives_targets_readWide : (readWide start).Gives fun i => i.targets = [] := by
  refine gives_part.bind fun byte _ => ?_
  split
  · exact gives_part.bind fun _ _ => gives_pure rfl
  · exact gives_part.bind fun _ _ => gives_pure rfl
  · exact gives_part.bind fun _ _ => gives_pure rfl
  · exact gives_part.bind fun _ _ => gives_part.bind fun _ _ => gives_pure rfl
  · exact gives_flaw

/-- The targets of an instruction are where its bytes say that it jumps. -/
theorem finds_read : (read pool start).Finds bytes fun i _ =>
    i.targets = storedJumps start bytes := by
  refine (finds_part Reader.finds_u8).bind ?_
  rintro byte operands rfl
  change Finds _ _ fun (i : Instruction Int) _ => i.Jumps (.ofByte byte) start operands
  -- Only an opcode of its own stores a jump: a prefix and the short forms never do.
  split
  · rename_i hb
    rw [hb]
    exact finds_of_gives gives_targets_readWide
  · split
    · rename_i hb
      rw [hb]
      exact finds_of_gives (gives_index.bind fun _ _ => gives_pure rfl)
    · split
      · rename_i i hi
        obtain ⟨hlt, ht⟩ := targets_ofShortByte? hi
        rw [JumpForm.ofByte_of_lt hlt]
        exact finds_pure ht
      · split
        · rename_i o ho
          have hb : o.byte = byte := by simpa using List.find?_some ho
          rw [← hb, o.ofByte_byte]
          exact finds_readOperands o
        · exact finds_flaw

/-- Every instruction of some code jumps to where the bytes say from which it was read. -/
theorem Reads.targets {offset : Nat} {items : List (Nat × Instruction Int)}
    (h : Reads pool offset bytes items) : ∀ item ∈ items,
      offset ≤ item.1 ∧ item.2.targets = storedJumps item.1 (bytes.drop (item.1 - offset)) := by
  induction h with
  | nil => simp
  | @cons offset j piece bytes items hr hs ih =>
    refine List.forall_mem_cons.mpr ⟨⟨Nat.le_refl _, ?_⟩, fun item hi => ?_⟩
    · rw [Nat.sub_self, List.drop_zero]
      exact finds_read hr
    · obtain ⟨hle, ht⟩ := ih item hi
      refine ⟨Nat.le_of_add_right_le hle, ?_⟩
      have hat : item.1 - offset = piece.length + (item.1 - (offset + piece.length)) := by omega
      rw [ht, hat, List.drop_length_add_append]

theorem targets_readAll {code : List UInt8} {items : List (Nat × Instruction Int)}
    (h : readAll pool code = .ok items) : ∀ item ∈ items,
      item.2.targets = storedJumps item.1 (code.drop item.1) :=
  fun item hi => ((reads_readAll h).targets item hi).2

end Instruction

end Classfile
