import Classfile.Proofs.Binary.Yields
import Classfile.Proofs.Code.Opcode
import Classfile.Proofs.Constant.Binary

/-!
An instruction is read back from its bytes, wherever it stands: in its short, its usual or its wide
form, and whatever follows it.
-/
namespace Classfile

namespace CodeReader

variable {α β : Type} {r : CodeReader α} {bytes more : List UInt8} {a : α} {b : β} {start : Nat}

/-- From a beginning `bytes` of what is left the reader takes exactly these bytes, and gives `a`. -/
def Yields (r : CodeReader α) (bytes : List UInt8) (a : α) : Prop :=
  ∀ offset rest, r ⟨offset, bytes ++ rest⟩ = .ok (a, ⟨offset + bytes.length, rest⟩)

theorem yields_pure (a : α) : (pure a : CodeReader α).Yields [] a := fun _ _ => rfl

theorem Yields.bind {f : α → CodeReader β} (h : r.Yields bytes a) (hf : (f a).Yields more b) :
    (r >>= f).Yields (bytes ++ more) b := by
  intro offset rest
  have hr := h offset (more ++ rest)
  have hb := hf (offset + bytes.length) rest
  rw [← List.append_assoc] at hr
  show (r ⟨offset, bytes ++ more ++ rest⟩ >>= fun p => f p.1 p.2) = _
  rw [hr, Except.ok_bind, hb, List.length_append, Nat.add_assoc]

theorem Yields.bind_nil {f : α → CodeReader β} (h : r.Yields bytes a) (hf : (f a).Yields [] b) :
    (r >>= f).Yields bytes b := by
  have hb := h.bind hf
  rwa [List.append_nil] at hb

theorem Yields.cons {f : α → CodeReader β} {byte : UInt8} (h : r.Yields [byte] a)
    (hf : (f a).Yields more b) : (r >>= f).Yields (byte :: more) b := h.bind hf

theorem Yields.map {f : α → β} (h : r.Yields bytes a) (hf : f a = b) :
    (r >>= fun x => pure (f x)).Yields bytes b := h.bind_nil (hf ▸ yields_pure (f a))

theorem yields_part {r : Reader α} {size : Nat} (h : r.Yields bytes a)
    (hs : bytes.length = size) : (part start size r).Yields bytes a := by
  intro offset rest
  simp only [part, h rest, hs]

theorem yields_byte (byte : UInt8) : (part start 1 Reader.u8).Yields [byte] byte :=
  yields_part (Reader.yields_u8 byte) rfl

/-- What is asked of the pool takes no bytes. -/
theorem yields_lift {x : Except Fault α} (h : x = .ok a) :
    (liftM x : CodeReader α).Yields [] a := by
  subst h
  exact fun _ _ => rfl

theorem yields_discard (h : r.Yields bytes a) : (discard r : CodeReader Unit).Yields bytes () := by
  intro offset rest
  show (r ⟨offset, bytes ++ rest⟩ >>= fun p => pure ((), p.2)) = _
  rw [h]
  rfl

/-- However many bytes follow, there are at least those that are read next. -/
theorem yields_remaining {f : Nat → CodeReader α}
    (h : ∀ n, bytes.length ≤ n → (f n).Yields bytes a) : (remaining >>= f).Yields bytes a := by
  intro offset rest
  exact h (bytes ++ rest).length (by simp) offset rest

variable {pool : ConstantPool} {role : Role} {i : ConstantIndex}

theorem yields_index (h : pool.checked role i = .ok i) :
    (index start pool role).Yields i.write i :=
  (yields_part i.yields_read rfl).bind_nil (yields_lift h)

end CodeReader

theorem BaseType.ofArrayCode?_arrayCode (t : BaseType) : ofArrayCode? t.arrayCode = some t := by
  cases t <;> decide

namespace Instruction

open CodeReader

variable {τ : Type} {pool : ConstantPool} {offset start : Nat} {bytes : List UInt8}
  {i : Instruction τ} {disp : τ → Except Fault Int} {f : τ → Int} {target : τ}

/-- The constant that the instruction uses, and the role that it has to play. -/
def operand? : Instruction τ → Option (ConstantIndex × Role)
  | constant index => some (index, .loadable)
  | wideConstant index => some (index, .wideLoadable)
  | field _ index => some (index, .fieldRef)
  | invoke _ index | invokeInterface index _ => some (index, .methodRef)
  | invokeDynamic index => some (index, .invokeDynamic)
  | typeOp _ index | multiNewArray index _ => some (index, .typeName)
  | _ => none

/-- The constant that the instruction uses is there and plays its role. -/
def WellTyped (pool : ConstantPool) (i : Instruction τ) : Prop :=
  ∀ operand ∈ i.operand?, pool.checked operand.2 operand.1 = .ok operand.1

/-- The form in which an instruction comes back after it was written: a widened jump is a wide jump
of its own, and the cases of a lookup switch are in the order of their keys. -/
def settled (widened : Bool) : Instruction τ → Instruction τ
  | jump kind target => if widened then wideJump kind target else jump kind target
  | lookupSwitch default cases => lookupSwitch default (sortCases cases)
  | i => i

theorem narrowJump_eq_ok : narrowJump offset disp target = .ok bytes ↔
    ∃ d, disp target = .ok d ∧ (-32768 ≤ d ∧ d ≤ 32767) ∧ bytes = Writer.i16 (Int16.ofInt d) := by
  rw [narrowJump, Except.bind_eq_ok]
  refine exists_congr fun d => and_congr_right fun _ => ?_
  split <;> rename_i h <;> simp [h, eq_comm]

theorem wideJumpBytes_eq_ok : wideJumpBytes offset disp target = .ok bytes ↔
    ∃ d, disp target = .ok d ∧ (-2147483648 ≤ d ∧ d ≤ 2147483647) ∧
      bytes = Writer.i32 (Int32.ofInt d) := by
  rw [wideJumpBytes, Except.bind_eq_ok]
  refine exists_congr fun d => and_congr_right fun _ => ?_
  split <;> rename_i h <;> simp [h, eq_comm]

theorem yields_narrowTarget (hf : ∀ t d, disp t = .ok d → offset + d = f t)
    (h : narrowJump offset disp target = .ok bytes) :
    (narrowTarget offset).Yields bytes (f target) := by
  obtain ⟨d, hd, hr, rfl⟩ := narrowJump_eq_ok.mp h
  refine (yields_part (Reader.yields_i16 _) rfl).map ?_
  rw [Int16.toInt_ofInt_of_le (by omega) (by omega)]
  exact hf target d hd

/-- The distance of a target in the four bytes that a wide jump has for it. -/
def wideDistance (offset : Nat) (f : τ → Int) (target : τ) : Int32 :=
  Int32.ofInt (f target - offset)

theorem wideJumpBytes_eq (hf : ∀ t d, disp t = .ok d → offset + d = f t)
    (h : wideJumpBytes offset disp target = .ok bytes) :
    bytes = Writer.i32 (wideDistance offset f target) ∧
      offset + (wideDistance offset f target).toInt = f target := by
  obtain ⟨d, hd, hr, rfl⟩ := wideJumpBytes_eq_ok.mp h
  have he : f target - offset = d := by
    have := hf target d hd
    omega
  rw [wideDistance, he, Int32.toInt_ofInt_of_le (by omega) (by omega)]
  exact ⟨rfl, hf target d hd⟩

theorem yields_wideTarget (hf : ∀ t d, disp t = .ok d → offset + d = f t)
    (h : wideJumpBytes offset disp target = .ok bytes) :
    (wideTarget offset).Yields bytes (f target) := by
  obtain ⟨rfl, ht⟩ := wideJumpBytes_eq hf h
  exact (yields_part (Reader.yields_i32 _) rfl).map ht

theorem yields_read_operands (o : Opcode) {j : Instruction Int}
    (h : (readOperands pool start o).Yields bytes j) :
    (read pool start).Yields (o.byte :: bytes) j := by
  obtain ⟨hw, hl, hs⟩ := o.byte_dispatch
  refine (yields_byte o.byte).cons ?_
  rw [if_neg hw, if_neg hl, hs]
  simp only [Opcode.ofByte?_byte]
  exact h

theorem yields_read_short {byte : UInt8} {j : Instruction Int} (h : ofShortByte? byte = some j) :
    (read pool start).Yields [byte] j := by
  have hw : byte ≠ widePrefixByte := by
    rintro rfl
    cases h
  have hl : byte ≠ longConstantByte := by
    rintro rfl
    cases h
  refine (yields_byte byte).bind_nil ?_
  rw [if_neg hw, if_neg hl, h]
  exact CodeReader.yields_pure j

theorem yields_read_wide {j : Instruction Int} (h : (readWide start).Yields bytes j) :
    (read pool start).Yields (widePrefixByte :: bytes) j :=
  (yields_byte widePrefixByte).cons h

theorem slot_toUInt8_toUInt16 {slot : UInt16} (h : slot.toNat < 256) :
    slot.toUInt8.toUInt16 = slot := by
  rw [← UInt16.toNat_inj, UInt8.toNat_toUInt16, UInt16.toNat_toUInt8]
  exact Nat.mod_eq_of_lt h

theorem amount_toInt8_toInt16 {amount : Int16} (h : -128 ≤ amount.toInt ∧ amount.toInt ≤ 127) :
    amount.toInt8.toInt16 = amount := by
  rw [← Int16.toInt_inj, Int8.toInt_toInt16, Int16.toInt_toInt8]
  exact Int.bmod_eq_of_le (by omega) (by omega)

section
variable {o : Opcode} {type : VariableType} {slot : UInt16} {make : UInt16 → Instruction Int}

theorem yields_narrowSlot
    (hn : readOperands pool start o = do return make (← part start 1 Reader.u8).toUInt16)
    (h : slot.toNat < 256) : (read pool start).Yields [o.byte, slot.toUInt8] (make slot) := by
  apply yields_read_operands o
  rw [hn]
  exact (yields_byte _).map (by rw [slot_toUInt8_toUInt16 h])

/-- The first four variables, the other ones that one byte can number, and all the rest. -/
theorem yields_variable {short : UInt8}
    (hs : slot.toNat < 4 → ofShortByte? (short + 4 * type.rank + slot.toUInt8) = some (make slot))
    (hn : readOperands pool start o = do return make (← part start 1 Reader.u8).toUInt16)
    (hw : (readWide start).Yields (o.byte :: Writer.u16 slot) (make slot)) :
    (read pool start).Yields (variableBytes short o.byte type slot) (make slot) := by
  unfold variableBytes
  split
  · exact yields_read_short (hs (by assumption))
  split
  · exact yields_narrowSlot hn (by assumption)
  · exact yields_read_wide hw

theorem yields_load : (read pool start).Yields
    (variableBytes shortLoadByte (Opcode.load type).byte type slot) (load type slot) := by
  refine yields_variable ofShortByte?_load rfl ?_
  refine (yields_byte _).cons ?_
  simp only [Opcode.ofByte?_byte]
  exact (yields_part (Reader.yields_u16 slot) rfl).map rfl

theorem yields_store : (read pool start).Yields
    (variableBytes shortStoreByte (Opcode.store type).byte type slot) (store type slot) := by
  refine yields_variable ofShortByte?_store rfl ?_
  refine (yields_byte _).cons ?_
  simp only [Opcode.ofByte?_byte]
  exact (yields_part (Reader.yields_u16 slot) rfl).map rfl

end

theorem yields_ret {widened : Bool} {slot : UInt16}
    (h : (ret slot : Instruction τ).bytes offset widened disp = .ok bytes) :
    (read pool start).Yields bytes (ret slot) := by
  simp only [Instruction.bytes] at h
  split at h
  · cases h
    exact yields_narrowSlot (o := .ret) rfl (by assumption)
  · cases h
    refine yields_read_wide ((yields_byte _).cons ?_)
    simp only [opcode, Opcode.ofByte?_byte]
    exact (yields_part (Reader.yields_u16 slot) rfl).map rfl

theorem yields_increment {widened : Bool} {slot : UInt16} {amount : Int16}
    (h : (increment slot amount : Instruction τ).bytes offset widened disp = .ok bytes) :
    (read pool start).Yields bytes (increment slot amount) := by
  simp only [Instruction.bytes] at h
  split at h
  · rename_i hs
    cases h
    refine yields_read_operands .increment ?_
    refine (yields_byte slot.toUInt8).cons ?_
    refine (yields_part (Reader.yields_i8 amount.toInt8) rfl).map ?_
    rw [slot_toUInt8_toUInt16 hs.1, amount_toInt8_toInt16 hs.2]
  · cases h
    refine yields_read_wide ((yields_byte _).cons ?_)
    simp only [opcode, Opcode.ofByte?_byte]
    exact (yields_part (Reader.yields_u16 slot) rfl).bind
      ((yields_part (Reader.yields_i16 amount) rfl).map rfl)

theorem yields_padding : (discard (part start (switchPadding start)
    (Reader.bytes (switchPadding start))) : CodeReader Unit).Yields
      (List.replicate (switchPadding start) 0) () := by
  have h := Reader.yields_bytes (List.replicate (switchPadding start) 0)
  rw [List.length_replicate] at h
  exact CodeReader.yields_discard (yields_part h (by simp))

theorem tableSwitch_bytes {widened : Bool} {default : τ} {low : Int32} {cases : List τ} :
    (tableSwitch default low cases).bytes offset widened disp = .ok bytes ↔
      cases ≠ [] ∧ low.toInt + cases.length - 1 ≤ 2147483647 ∧
        ∃ first pieces, wideJumpBytes offset disp default = .ok first ∧
          cases.mapM (wideJumpBytes offset disp) = .ok pieces ∧
          bytes = Opcode.tableSwitch.byte :: (List.replicate (switchPadding offset) 0 ++ first ++
            Writer.i32 low ++ Writer.i32 (Int32.ofInt (low.toInt + cases.length - 1)) ++
            pieces.flatten) := by
  simp only [Instruction.bytes]
  by_cases hc : cases = []
  · simp [hc]
  by_cases hh : low.toInt + cases.length - 1 > 2147483647
  · simp only [hc, hh, List.isEmpty_iff, if_true, if_false, Except.throw_eq, Except.error_bind]
    rw [Except.bind_eq_ok]
    constructor
    · rintro ⟨_, _, h⟩
      cases h
    · rintro ⟨_, h, _⟩
      omega
  · simp only [hc, hh, List.isEmpty_iff, if_false, ne_eq, not_false_iff, true_and,
      Except.bind_eq_ok]
    constructor
    · rintro ⟨first, hd, pieces, hp, h⟩
      cases h
      exact ⟨by omega, first, pieces, hd, hp, rfl⟩
    · rintro ⟨_, first, pieces, hd, hp, rfl⟩
      exact ⟨first, hd, pieces, hp, rfl⟩

theorem lookupSwitch_bytes {widened : Bool} {default : τ} {cases : List (Int32 × τ)} :
    (lookupSwitch default cases).bytes offset widened disp = .ok bytes ↔
      repeatedKey? (sortCases cases) = none ∧
        ∃ first pairs, wideJumpBytes offset disp default = .ok first ∧
          (sortCases cases).mapM (fun (key, target) => do
            return Writer.i32 key ++ (← wideJumpBytes offset disp target)) = .ok pairs ∧
          bytes = Opcode.lookupSwitch.byte :: (List.replicate (switchPadding offset) 0 ++ first ++
            BigEndian.pack 4 (sortCases cases).length ++ pairs.flatten) := by
  simp only [Instruction.bytes]
  cases hr : repeatedKey? (sortCases cases) with
  | some key => simp
  | none =>
    simp only [true_and, Except.bind_eq_ok]
    constructor
    · rintro ⟨first, hd, pairs, hp, h⟩
      cases h
      exact ⟨first, pairs, hd, hp, rfl⟩
    · rintro ⟨first, pairs, hd, hp, rfl⟩
      exact ⟨first, hd, pairs, hp, rfl⟩

theorem length_pieces {piece : τ → List UInt8} {size : Nat} (h : ∀ t, (piece t).length = size)
    {targets : List τ} : (targets.map piece).flatten.length = targets.length * size := by
  have hl : (targets.map piece).map List.length = List.replicate targets.length size := by
    rw [List.map_map]
    exact List.map_eq_replicate_iff.mpr fun t _ => h t
  rw [List.length_flatten, hl, List.sum_replicate_nat]

/-- The targets of a table switch, each in four bytes. -/
theorem wideJumps_eq (hf : ∀ t d, disp t = .ok d → offset + d = f t) {targets : List τ}
    {pieces : List (List UInt8)} (h : targets.mapM (wideJumpBytes offset disp) = .ok pieces) :
    pieces = targets.map (fun t => Writer.i32 (wideDistance offset f t)) ∧
      targets.map (fun t => offset + (wideDistance offset f t).toInt) = targets.map f := by
  rw [Except.mapM_eq_ok] at h
  induction h with
  | nil => exact ⟨rfl, rfl⟩
  | cons hx _ ih =>
    obtain ⟨rfl, ht⟩ := wideJumpBytes_eq hf hx
    simp only [List.map_cons, ht, ← ih.1, ih.2, and_self]

theorem yields_tableSwitch {widened : Bool} {default : τ} {low : Int32} {cases : List τ}
    (hf : ∀ t d, disp t = .ok d → offset + d = f t)
    (h : (tableSwitch default low cases).bytes offset widened disp = .ok bytes) :
    (read pool offset).Yields bytes (tableSwitch (f default) low (cases.map f)) := by
  obtain ⟨hc, hh, first, pieces, hd, hp, rfl⟩ := tableSwitch_bytes.mp h
  obtain ⟨rfl, ht⟩ := wideJumps_eq hf hp
  have hpos : 0 < cases.length := List.length_pos_iff.mpr hc
  have hlow := low.le_toInt
  have hhigh : (Int32.ofInt (low.toInt + cases.length - 1)).toInt = low.toInt + cases.length - 1 :=
    Int32.toInt_ofInt_of_le (by omega) (by omega)
  have hcount : ((Int32.ofInt (low.toInt + cases.length - 1)).toInt - low.toInt + 1).toNat =
      cases.length := by
    rw [hhigh]
    omega
  have hlt : ¬ Int32.ofInt (low.toInt + cases.length - 1) < low := by
    rw [Int32.lt_iff_toInt_lt, hhigh]
    omega
  apply yields_read_operands .tableSwitch
  simp only [List.append_assoc]
  refine yields_padding.bind ((yields_wideTarget hf hd).bind ?_)
  refine (yields_part (Reader.yields_i32 low) rfl).bind ?_
  refine (yields_part (Reader.yields_i32 _) rfl).bind ?_
  simp only [hlt, if_false, hcount]
  have hlen : ∀ t, (Writer.i32 (wideDistance offset f t)).length = 4 := fun _ => rfl
  refine yields_remaining fun n hn => ?_
  rw [length_pieces hlen] at hn
  rw [if_neg (by omega)]
  refine (yields_part (Reader.yields_times_map (fun t => Reader.yields_i32 _) cases)
    (length_pieces hlen)).map ?_
  rw [List.map_map, ← ht]
  rfl

theorem lookupPairs_eq (hf : ∀ t d, disp t = .ok d → offset + d = f t)
    {cases : List (Int32 × τ)} {pairs : List (List UInt8)}
    (h : cases.mapM (fun (key, target) => do
      return Writer.i32 key ++ (← wideJumpBytes offset disp target)) = .ok pairs) :
    pairs = cases.map (fun c => Writer.i32 c.1 ++ Writer.i32 (wideDistance offset f c.2)) ∧
      cases.map (fun c => (c.1, offset + (wideDistance offset f c.2).toInt)) =
        cases.map fun c => (c.1, f c.2) := by
  rw [Except.mapM_eq_ok] at h
  induction h with
  | nil => exact ⟨rfl, rfl⟩
  | cons hx _ ih =>
    obtain ⟨piece, hp, rfl⟩ := Except.map_eq_ok.mp hx
    obtain ⟨rfl, ht⟩ := wideJumpBytes_eq hf hp
    simp only [List.map_cons, ht, ← ih.1, ih.2, and_self]

theorem yields_lookupSwitch {widened : Bool} {default : τ} {cases : List (Int32 × τ)}
    (hf : ∀ t d, disp t = .ok d → offset + d = f t) (hl : cases.length < 2 ^ 31)
    (h : (lookupSwitch default cases).bytes offset widened disp = .ok bytes) :
    (read pool offset).Yields bytes
      (lookupSwitch (f default) ((sortCases cases).map fun c => (c.1, f c.2))) := by
  obtain ⟨-, first, pairs, hd, hp, rfl⟩ := lookupSwitch_bytes.mp h
  obtain ⟨rfl, ht⟩ := lookupPairs_eq hf hp
  have hsort : (sortCases cases).length = cases.length := List.length_mergeSort ..
  have hcount : (Int32.ofInt (sortCases cases).length).toInt = (sortCases cases).length :=
    Int32.toInt_ofInt_of_le (by omega) (by omega)
  apply yields_read_operands .lookupSwitch
  simp only [List.append_assoc]
  refine yields_padding.bind ((yields_wideTarget hf hd).bind ?_)
  have hi : Reader.i32.Yields (BigEndian.pack 4 (sortCases cases).length)
      (Int32.ofInt (sortCases cases).length) := by
    have hw : Writer.i32 (Int32.ofInt (sortCases cases).length) =
        BigEndian.pack 4 (sortCases cases).length := by
      rw [Int32.ofInt_eq_ofNat, Writer.i32, Int32.toUInt32_ofNat', Writer.u32,
        UInt32.toNat_ofNat_of_lt' (by simp only [UInt32.size]; omega)]
    exact hw ▸ Reader.yields_i32 _
  have hlen : ∀ c : Int32 × τ,
      (Writer.i32 c.1 ++ Writer.i32 (wideDistance offset f c.2)).length = 8 := fun _ => rfl
  refine (yields_part hi (BigEndian.length_pack ..)).bind ?_
  rw [hcount, Int.toNat_natCast]
  refine yields_remaining fun n hn => ?_
  rw [length_pieces hlen] at hn
  have hok : ¬ (Int32.ofInt (sortCases cases).length < 0 ∨ (sortCases cases).length * 8 > n) := by
    rw [Int32.lt_iff_toInt_lt, hcount]
    have : (0 : Int32).toInt = 0 := rfl
    omega
  simp only [hok, if_false]
  have hpair : ∀ c : Int32 × τ, Reader.Yields (do return (← Reader.i32, ← Reader.i32))
      (Writer.i32 c.1 ++ Writer.i32 (wideDistance offset f c.2))
      (c.1, wideDistance offset f c.2) := fun c =>
    (Reader.yields_i32 c.1).bind ((Reader.yields_i32 _).map rfl)
  refine (yields_part (Reader.yields_times_map hpair (sortCases cases))
    (length_pieces hlen)).map ?_
  rw [List.map_map, ← ht]
  rfl

theorem yields_read {widened : Bool} (hf : ∀ t d, disp t = .ok d → offset + d = f t)
    (hp : i.WellTyped pool) (hl : i.lengthAt offset < 2 ^ 31)
    (h : i.bytes offset widened disp = .ok bytes) :
    (read pool offset).Yields bytes ((i.settled widened).mapTargets f) := by
  cases i with
  | simple op => cases h; exact yields_read_operands (.simple op) (CodeReader.yields_pure _)
  | pushByte value =>
    cases h
    exact yields_read_operands .pushByte
      ((yields_part (Reader.yields_i8 value) rfl).map rfl)
  | pushShort value =>
    cases h
    exact yields_read_operands .pushShort
      ((yields_part (Reader.yields_i16 value) rfl).map rfl)
  | constant index =>
    simp only [Instruction.bytes] at h
    split at h
    · rename_i hs
      cases h
      refine yields_read_operands .constant ((yields_byte _).bind_nil ?_)
      rw [slot_toUInt8_toUInt16 hs]
      exact (yields_lift (hp _ rfl)).map rfl
    · cases h
      exact (yields_byte longConstantByte).cons ((yields_index (hp _ rfl)).map rfl)
  | wideConstant index =>
    cases h
    exact yields_read_operands .wideConstant ((yields_index (hp _ rfl)).map rfl)
  | load type slot => cases h; exact yields_load
  | store type slot => cases h; exact yields_store
  | increment slot amount => exact yields_increment h
  | branch condition target =>
    obtain ⟨piece, ht, rfl⟩ := Except.map_eq_ok.mp h
    exact yields_read_operands (.branch condition) ((yields_narrowTarget hf ht).map rfl)
  | jump kind target =>
    cases widened with
    | false =>
      obtain ⟨piece, ht, rfl⟩ := Except.map_eq_ok.mp h
      exact yields_read_operands (.jump kind) ((yields_narrowTarget hf ht).map rfl)
    | true =>
      obtain ⟨piece, ht, rfl⟩ := Except.map_eq_ok.mp h
      exact yields_read_operands (.wideJump kind) ((yields_wideTarget hf ht).map rfl)
  | ret slot => exact yields_ret h
  | tableSwitch default low cases => exact yields_tableSwitch hf h
  | lookupSwitch default cases =>
    refine yields_lookupSwitch hf ?_ h
    simp only [lengthAt] at hl
    omega
  | field access index =>
    cases h
    exact yields_read_operands (.field access) ((yields_index (hp _ rfl)).map rfl)
  | invoke mode index =>
    cases h
    exact yields_read_operands (.invoke mode) ((yields_index (hp _ rfl)).map rfl)
  | invokeInterface index count =>
    cases h
    apply yields_read_operands .invokeInterface
    refine (yields_index (hp _ rfl)).bind ?_
    refine (yields_byte count).cons ?_
    exact (yields_discard (yields_byte 0)).map rfl
  | invokeDynamic index =>
    cases h
    apply yields_read_operands .invokeDynamic
    refine (yields_part index.yields_read rfl).bind ?_
    refine (yields_discard (yields_part (Reader.yields_u16 0) rfl)).bind_nil ?_
    exact (yields_lift (hp _ rfl)).map rfl
  | typeOp operation index =>
    cases h
    exact yields_read_operands (.typeOp operation) ((yields_index (hp _ rfl)).map rfl)
  | newArray element =>
    cases h
    apply yields_read_operands .newArray
    refine (yields_byte _).bind_nil ?_
    rw [BaseType.ofArrayCode?_arrayCode]
    exact CodeReader.yields_pure _
  | multiNewArray index dimensions =>
    cases h
    apply yields_read_operands .multiNewArray
    exact (yields_index (hp _ rfl)).bind ((yields_byte dimensions).map rfl)
  | wideJump kind target =>
    obtain ⟨piece, ht, rfl⟩ := Except.map_eq_ok.mp h
    exact yields_read_operands (.wideJump kind) ((yields_wideTarget hf ht).map rfl)

end Instruction

end Classfile
