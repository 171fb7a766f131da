import Classfile.Code.Decoding
import Classfile.Proofs.Pool.Lasting

/-! Code that can be read with a pool is read in the same way when the pool has grown. -/
namespace Classfile

variable {α β : Type} {pool pool' : ConstantPool}

namespace CodeReader

/-- From wherever it begins, whatever the first reader gives, the second one gives, too. -/
def Within (r s : CodeReader α) : Prop := ∀ c, (r.run c).Within (s.run c)

theorem Within.refl (r : CodeReader α) : r.Within r := fun _ => Except.Within.refl _

theorem Within.bind {r s : CodeReader α} {f g : α → CodeReader β} (h : r.Within s)
    (hf : ∀ a, (f a).Within (g a)) : (r >>= f).Within (s >>= g) :=
  fun c => (h c).bind fun (a, c') => hf a c'

theorem within_checked (h : pool.Grows pool') (role : Role) (i : ConstantIndex) :
    Within (pool.checked role i : CodeReader ConstantIndex) (pool'.checked role i) :=
  fun _ => (h.within_checked role i).bind fun _ => .refl _

theorem within_index (h : pool.Grows pool') (start : Nat) (role : Role) :
    (index start pool role).Within (index start pool' role) :=
  (Within.refl _).bind fun i => within_checked h role i

end CodeReader

namespace Instruction

open CodeReader

theorem within_readOperands (h : pool.Grows pool') (start : Nat) (o : Opcode) :
    (readOperands pool start o).Within (readOperands pool' start o) := by
  have hi : ∀ role (f : ConstantIndex → CodeReader (Instruction Int)),
      (index start pool role >>= f).Within (index start pool' role >>= f) :=
    fun role f => (within_index h start role).bind fun _ => .refl _
  cases o with
  | constant =>
    refine (Within.refl _).bind fun byte => ?_
    exact (within_checked h .loadable _).bind fun _ => .refl _
  | wideConstant => exact hi _ _
  | field access => exact hi _ _
  | invoke mode => exact hi _ _
  | invokeInterface => exact hi _ _
  | invokeDynamic =>
    refine (Within.refl _).bind fun i => (Within.refl _).bind fun _ => ?_
    exact (within_checked h .invokeDynamic i).bind fun _ => .refl _
  | typeOp operation => exact hi _ _
  | multiNewArray => exact hi _ _
  | _ => exact .refl _

theorem within_read (h : pool.Grows pool') (start : Nat) :
    (read pool start).Within (read pool' start) := by
  refine (Within.refl _).bind fun byte => ?_
  by_cases hw : byte = widePrefixByte
  · rw [if_pos hw, if_pos hw]
    exact .refl _
  rw [if_neg hw, if_neg hw]
  by_cases hl : byte = longConstantByte
  · rw [if_pos hl, if_pos hl]
    exact (within_index h start _).bind fun _ => .refl _
  rw [if_neg hl, if_neg hl]
  cases ofShortByte? byte with
  | some i => exact .refl _
  | none =>
    cases Opcode.ofByte? byte with
    | some o => exact within_readOperands h start o
    | none => exact .refl _

theorem within_readAllOnto (h : pool.Grows pool') (more : Nat) (c : CodeCursor)
    (done : List (Nat × Instruction Int)) :
    (readAllOnto pool done more c).Within (readAllOnto pool' done more c) := by
  induction more generalizing c done with
  | zero => exact .refl _
  | succ more ih =>
    unfold readAllOnto
    split
    · exact .refl _
    · cases hr : (read pool c.offset).run c with
      | error e => exact Except.within_error e
      | ok next =>
        rw [within_read h c.offset c hr]
        exact ih _ _

end Instruction

theorem within_decodeCode (h : pool.Grows pool') (code : List UInt8) :
    (decodeCode pool code).Within (decodeCode pool' code) :=
  (Instruction.within_readAllOnto h _ _ _).bind fun _ => .refl _

end Classfile
