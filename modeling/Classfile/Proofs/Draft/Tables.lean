import Classfile.Draft.Method
import Classfile.Proofs.Attribute.Payload
import Classfile.Proofs.Code.Starts

/-!
The tables of a method refer to instructions by handle, and are stored with offsets. What is read
from a stored table refers to the same instructions, by the handles that they have got. The end of a
range is stored as the offset behind its last instruction, which may be the end of the code.
-/
namespace Classfile

open InstructionSeq

variable {s : InstructionSeq} {wide : Std.HashSet Handle} {bytes : List UInt8}
  {pool : ConstantPool} {d : MethodDraft} {h : Handle} {n m : Nat}

namespace InstructionSeq

/-- The bytes of a sequence, and the jumps that are widened in them. -/
structure Written (s : InstructionSeq) (wide : Std.HashSet Handle) (bytes : List UInt8) : Prop where
  linked : s.Linked
  layout : s.layout = Layout.widening s wide
  length : bytes.length = s.startAt wide s.toList.length
  room : bytes.length ≤ maxCodeLength

theorem exists_written (hs : s.Linked) (h : s.encode = .ok bytes) :
    ∃ wide, s.Written wide bytes := by
  obtain ⟨wide, hl, hj⟩ := Layout.exists_widening s
  obtain ⟨hlen, hroom⟩ := length_encode hs hl hj h
  exact ⟨wide, hs, hl, hlen, hroom⟩

theorem renumber_of_position? (hp : s.position? h = some n) : s.renumber h = handleOf n := by
  rw [renumber, hp, Option.getD_some]

namespace Written

theorem toNat_startAt (hw : s.Written wide bytes) (hn : n ≤ s.toList.length) :
    (UInt16.ofNat (s.startAt wide n)).toNat = s.startAt wide n := by
  have hle : s.startAt wide n ≤ s.startAt wide s.toList.length := startAt_le hn (Nat.le_refl _)
  have hr := hw.room
  rw [hw.length, maxCodeLength] at hr
  exact UInt16.toNat_ofNat_of_lt' (Nat.lt_succ_of_le (Nat.le_trans hle hr))

theorem toNat_sub (hw : s.Written wide bytes) (hn : n ≤ s.toList.length) (m : Nat) :
    (UInt16.ofNat (s.startAt wide n - m)).toNat = s.startAt wide n - m := by
  have hroom := (UInt16.ofNat (s.startAt wide n)).toNat_lt
  rw [hw.toNat_startAt hn] at hroom
  exact UInt16.toNat_ofNat_of_lt' (Nat.lt_of_le_of_lt (Nat.sub_le _ _) hroom)

theorem startOffset (hw : s.Written wide bytes) (hp : s.position? h = some n) :
    MethodDraft.startOffset s.layout h = .ok (UInt16.ofNat (s.startAt wide n)) := by
  rw [MethodDraft.startOffset, hw.layout, offsetOf?_of_position? hw.linked hp]

theorem stopOffset (hw : s.Written wide bytes) (hp : s.position? h = some n) :
    MethodDraft.stopOffset s.layout h = .ok (UInt16.ofNat (s.startAt wide (n + 1))) := by
  rw [MethodDraft.stopOffset, hw.layout, endOf?_of_position? hw.linked hp]

end Written

end InstructionSeq

namespace MethodDraft

theorem boundary_eq_ok {code : DecodedCode} {place : Boundary} {pc : UInt16} :
    d.boundary code place pc = .ok h ↔ code.handleAt? pc.toNat = some h := by
  unfold boundary
  cases code.handleAt? pc.toNat <;> simp

theorem range_eq_ok {code : DecodedCode} {place : Boundary} {length stop : Nat} {start : UInt16}
    {first last : Handle} : d.range code length place start stop = .ok (first, last) ↔
      code.handleAt? start.toNat = some first ∧
        (stop = length ∨ (code.handleAt? stop).isSome) ∧ start.toNat < stop ∧
          code.handleBefore? stop = some last := by
  rw [range, Except.bind_eq_ok]
  simp only [boundary_eq_ok]
  constructor
  · rintro ⟨f, hf, h⟩
    split at h
    · rename_i l hl
      cases h
      split at hl
      · rename_i hc
        simp only [Bool.and_eq_true, Bool.or_eq_true, decide_eq_true_eq] at hc
        exact ⟨hf, hc.1, hc.2, hl⟩
      · cases hl
    · cases h
  · rintro ⟨hf, hb, hlt, hl⟩
    refine ⟨first, hf, ?_⟩
    simp [hb, hlt, hl]

end MethodDraft

/-- The same range with other handles. -/
def GuardedRange.relocate (f : Handle → Handle) (range : GuardedRange) : GuardedRange :=
  ⟨f range.first, f range.last, f range.handler, range.catchType⟩

/-- The same scope with other handles. -/
def VariableScope.relocate (f : Handle → Handle) (scope : VariableScope) : VariableScope :=
  ⟨f scope.first, f scope.last, scope.name, scope.descriptor, scope.slot⟩

namespace InstructionSeq.Written

open MethodDraft

variable {range : GuardedRange} {scope : VariableScope} {line : Handle × UInt16}

theorem position_lt (hp : s.position? h = some n) : n < s.toList.length :=
  (take_of_position? hp).1

theorem boundary_readBack (hw : s.Written wide bytes) (hp : s.position? h = some n)
    (place : Boundary) :
    d.boundary s.readBack place (UInt16.ofNat (s.startAt wide n)) = .ok (s.renumber h) := by
  have hn := position_lt hp
  rw [boundary_eq_ok, hw.toNat_startAt (Nat.le_of_lt hn),
    handleAt?_startAt hw.linked hw.layout hn, renumber_of_position? hp]

theorem range_readBack (hw : s.Written wide bytes) {first last : Handle}
    (hf : s.position? first = some n) (hl : s.position? last = some m) (hnm : n ≤ m)
    (place : Boundary) : d.range s.readBack bytes.length place
      (UInt16.ofNat (s.startAt wide n)) (s.startAt wide (m + 1)) =
        .ok (s.renumber first, s.renumber last) := by
  have hn := position_lt hf
  have hm := position_lt hl
  rw [range_eq_ok, hw.toNat_startAt (Nat.le_of_lt hn), renumber_of_position? hf,
    renumber_of_position? hl]
  refine ⟨handleAt?_startAt hw.linked hw.layout hn, ?_, startAt_lt (by omega) hm,
    handleBefore?_startAt hw.linked hw.layout hm⟩
  -- the range ends with the code, or the next instruction starts where it ends
  rcases Nat.eq_or_lt_of_le (show m + 1 ≤ s.toList.length from hm) with he | hlt
  · exact .inl (by rw [hw.length, he])
  · exact .inr (by rw [handleAt?_startAt hw.linked hw.layout hlt]; rfl)

theorem storedHandler_eq (hw : s.Written wide bytes) {k : Nat}
    (hf : s.position? range.first = some n) (hl : s.position? range.last = some m)
    (hh : s.position? range.handler = some k) : storedHandler s.layout range =
      .ok ⟨UInt16.ofNat (s.startAt wide n), UInt16.ofNat (s.startAt wide (m + 1)),
        UInt16.ofNat (s.startAt wide k), range.catchType⟩ := by
  rw [storedHandler, hw.startOffset hf, hw.stopOffset hl, hw.startOffset hh]
  rfl

theorem wrapHandler_stored (hw : s.Written wide bytes) (hr : s.Spans range.first range.last)
    (hh : s.contains range.handler)
    (hc : ∀ i ∈ range.catchType, pool.checked .typeName i = .ok i) {stored : ExceptionHandler}
    (h : storedHandler s.layout range = .ok stored) :
    wrapHandler pool d s.readBack bytes.length stored = .ok (range.relocate s.renumber) := by
  obtain ⟨n, m, hf, hl, hnm⟩ := hr
  obtain ⟨k, hk⟩ := exists_position? hw.linked hh
  rw [hw.storedHandler_eq hf hl hk] at h
  cases h
  have hct : range.catchType.mapM (pool.checked .typeName) = .ok range.catchType := by
    cases ht : range.catchType with
    | none => rfl
    | some i =>
      rw [Option.mapM_some, hc i ht]
      rfl
  rw [wrapHandler, hw.toNat_startAt (position_lt hl), hw.range_readBack hf hl hnm,
    Except.ok_bind, hw.boundary_readBack hk]
  dsimp only
  rw [Except.ok_bind, hct]
  rfl

theorem wrapLine_stored (hw : s.Written wide bytes) (hh : s.contains line.1) {stored : LineNumber}
    (h : storedLine s.layout line = .ok stored) :
    wrapLine d s.readBack stored = .ok (s.renumber line.1, line.2) := by
  obtain ⟨n, hn⟩ := exists_position? hw.linked hh
  rw [storedLine, hw.startOffset hn] at h
  cases h
  rw [wrapLine, hw.boundary_readBack hn]
  rfl

theorem storedScope_eq (hw : s.Written wide bytes) (hf : s.position? scope.first = some n)
    (hl : s.position? scope.last = some m) : storedScope s.layout scope =
      .ok ⟨UInt16.ofNat (s.startAt wide n),
        UInt16.ofNat (s.startAt wide (m + 1) - s.startAt wide n), scope.name, scope.descriptor,
        scope.slot⟩ := by
  rw [storedScope, hw.startOffset hf, hw.stopOffset hl, Except.ok_bind, Except.ok_bind,
    hw.toNat_startAt (position_lt hl), hw.toNat_startAt (Nat.le_of_lt (position_lt hf))]
  rfl

theorem wrapScope_stored (hw : s.Written wide bytes) (hr : s.Spans scope.first scope.last)
    {name descriptor : String} (hn : pool.text scope.name = .ok name)
    (hd : pool.text scope.descriptor = .ok descriptor) {stored : VariableRange}
    (h : storedScope s.layout scope = .ok stored) :
    wrapScope pool d s.readBack bytes.length stored = .ok (some (scope.relocate s.renumber)) := by
  obtain ⟨n, m, hf, hl, hnm⟩ := hr
  rw [hw.storedScope_eq hf hl] at h
  cases h
  have hlt : s.startAt wide n < s.startAt wide (m + 1) := startAt_lt (by omega) (position_lt hl)
  have hlen := hw.toNat_sub (show m + 1 ≤ _ from position_lt hl) (s.startAt wide n)
  have hne : UInt16.ofNat (s.startAt wide (m + 1) - s.startAt wide n) ≠ 0 := by
    intro he
    rw [he] at hlen
    simp only [UInt16.toNat_zero] at hlen
    omega
  have hsum : s.startAt wide n + (s.startAt wide (m + 1) - s.startAt wide n) =
      s.startAt wide (m + 1) := by
    omega
  rw [wrapScope, if_neg hne]
  dsimp only
  rw [hlen, hw.toNat_startAt (Nat.le_of_lt (position_lt hf)), hsum, hw.range_readBack hf hl hnm,
    Except.ok_bind, hn, hd]
  rfl

end InstructionSeq.Written

end Classfile
