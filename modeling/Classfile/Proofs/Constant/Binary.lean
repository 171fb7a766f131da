import Classfile.Constant.Binary
import Classfile.Proofs.Binary.Yields
import Classfile.Proofs.Text.ModifiedUtf8

/-! Constants are read back from their bytes. -/
namespace Classfile

open Reader

namespace ConstantIndex

theorem yields_read (i : ConstantIndex) : read.Yields i.write i := (yields_u16 i.value).map rfl

/-- Zero stands for nothing, so it cannot be told apart from an index that is zero. -/
theorem yields_readOptional {i : Option ConstantIndex} (h : i ≠ some ⟨0⟩) :
    readOptional.Yields (writeOptional i) i := by
  cases i with
  | none => exact (yields_read ⟨0⟩).map rfl
  | some i =>
    refine (yields_read i).map (if_neg ?_)
    intro hi
    exact h (congrArg some (congrArg ConstantIndex.mk hi))

end ConstantIndex

theorem HandleKind.ofCode?_code (k : HandleKind) : ofCode? k.code = some k := by
  cases k <;> decide

namespace Constant

theorem yields_readText {text : String} {bytes : List UInt8} (h : writeText text = .ok bytes) :
    readText.Yields bytes text := by
  by_cases hl : (ModifiedUtf8.encode text).length > 65535
  · simp [writeText, hl] at h
  · simp only [writeText, hl, if_false, Except.ok.injEq] at h
    subst h
    have hn : (UInt16.ofNat (ModifiedUtf8.encode text).length).toNat =
        (ModifiedUtf8.encode text).length :=
      UInt16.toNat_ofNat_of_lt' (Nat.lt_succ_of_le (Nat.le_of_not_lt hl))
    refine (yields_count (by omega)).bind ?_
    rw [hn]
    refine (yields_bytes _).bind_nil ?_
    rw [ModifiedUtf8.decode_encode]
    exact yields_pure text

theorem yields_readHandleKind (k : HandleKind) :
    readHandleKind.Yields (Writer.u8 k.code) k := by
  refine (yields_u8 k.code).bind_nil ?_
  rw [HandleKind.ofCode?_code]
  exact yields_pure k

theorem yields_readBody {c : Constant} {bytes : List UInt8} (h : c.writeBody = .ok bytes) :
    (readBody c.tag).Yields bytes c := by
  cases c with
  | utf8 text => exact (yields_readText h).map rfl
  | integer value => cases h; exact (yields_i32 value).map rfl
  | float bits => cases h; exact (yields_u32 bits).map rfl
  | long value => cases h; exact (yields_i64 value).map rfl
  | double bits => cases h; exact (yields_u64 bits).map rfl
  | typeName i => cases h; exact i.yields_read.map rfl
  | string i => cases h; exact i.yields_read.map rfl
  | fieldRef i j => cases h; exact i.yields_read.bind (j.yields_read.map rfl)
  | methodRef ofInterface i j =>
    cases h
    cases ofInterface with
    | false => exact i.yields_read.bind (j.yields_read.map rfl)
    | true => exact i.yields_read.bind (j.yields_read.map rfl)
  | nameAndType i j => cases h; exact i.yields_read.bind (j.yields_read.map rfl)
  | methodHandle kind i =>
    cases h
    exact (yields_readHandleKind kind).bind (i.yields_read.map rfl)
  | methodType i => cases h; exact i.yields_read.map rfl
  | dynamic bootstrap i => cases h; exact (yields_u16 bootstrap).bind (i.yields_read.map rfl)
  | invokeDynamic bootstrap i =>
    cases h
    exact (yields_u16 bootstrap).bind (i.yields_read.map rfl)
  | moduleName i => cases h; exact i.yields_read.map rfl
  | packageName i => cases h; exact i.yields_read.map rfl

theorem yields_read {c : Constant} {bytes : List UInt8} (h : c.write = .ok bytes) :
    read.Yields bytes c := by
  obtain ⟨body, hb, rfl⟩ := Except.map_eq_ok.mp h
  exact (yields_u8 c.tag).bind (yields_readBody hb)

end Constant

end Classfile
