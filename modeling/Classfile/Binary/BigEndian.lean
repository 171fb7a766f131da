/-!
Numbers as fixed counts of bytes, most significant byte first. Main statement: unpacking undoes
packing, up to the range that the count of bytes can hold.
-/
namespace Classfile.BigEndian

/-- The `width` low bytes of a number. -/
def pack : Nat → Nat → List UInt8
  | 0, _ => []
  | width + 1, n => pack width (n / 256) ++ [UInt8.ofNat n]

/-- The number that some bytes stand for. -/
def unpack (bytes : List UInt8) : Nat :=
  bytes.foldl (fun n b => n * 256 + b.toNat) 0

theorem length_pack (width n : Nat) : (pack width n).length = width := by
  induction width generalizing n with
  | zero => rfl
  | succ width ih => simp [pack, ih]

theorem unpack_pack (width n : Nat) : unpack (pack width n) = n % Nat.pow 256 width := by
  induction width generalizing n with
  | zero => simp [pack, unpack, Nat.mod_one]
  | succ width ih =>
    have h := ih (n / 256)
    simp only [unpack] at h
    simp only [pack, unpack, List.foldl_append, h, List.foldl_cons, List.foldl_nil]
    have split : Nat.pow 256 (width + 1) = 256 * Nat.pow 256 width := Nat.pow_succ'
    rw [split, Nat.mod_mul, UInt8.toNat_ofNat']
    omega

end Classfile.BigEndian
