import Classfile.Text.ModifiedUtf8
import Classfile.Proofs.Except
import Mathlib.Data.List.Basic

/-!
Every text is read back from its modified UTF-8 form: first its 16-bit units from the bytes, and
then its characters from the units.
-/
namespace Classfile.ModifiedUtf8

theorem unitsOnto_one (done : List Nat) {a : UInt8} (rest : List UInt8)
    (ha : 0 < a.toNat ∧ a.toNat < 0x80) :
    unitsOnto done (a :: rest) = unitsOnto (a.toNat :: done) rest := by
  rw [unitsOnto.eq_def]
  simp [ha]

theorem unitsOnto_two (done : List Nat) {a b : UInt8} (rest : List UInt8)
    (ha : a.toNat / 32 = 6) (hb : isContinuation b = true) :
    unitsOnto done (a :: b :: rest) =
      unitsOnto ((a.toNat % 32 * 64 + b.toNat % 64) :: done) rest := by
  have h1 : ¬ (0 < a.toNat ∧ a.toNat < 0x80) := by omega
  rw [unitsOnto.eq_def]
  simp only [h1, ha, hb, if_true, if_false]

theorem unitsOnto_three (done : List Nat) {a b c : UInt8} (rest : List UInt8)
    (ha : a.toNat / 16 = 14) (hb : isContinuation b = true) (hc : isContinuation c = true) :
    unitsOnto done (a :: b :: c :: rest) =
      unitsOnto ((a.toNat % 16 * 4096 + b.toNat % 64 * 64 + c.toNat % 64) :: done) rest := by
  have h1 : ¬ (0 < a.toNat ∧ a.toNat < 0x80) := by omega
  have h2 : ¬ a.toNat / 32 = 6 := by omega
  rw [unitsOnto.eq_def]
  simp only [h1, h2, ha, hb, hc, Bool.and_self, if_true, if_false]

theorem isContinuation_ofNat {n : Nat} (h : n < 64) :
    isContinuation (UInt8.ofNat (0x80 + n)) = true := by
  simp [isContinuation]
  omega

theorem unitsOnto_encodeUnit (done : List Nat) {unit : Nat} (h : unit < 0x10000)
    (rest : List UInt8) :
    unitsOnto done (encodeUnit unit ++ rest) = unitsOnto (unit :: done) rest := by
  unfold encodeUnit
  split
  · have ha : (UInt8.ofNat unit).toNat = unit := by simp; omega
    rw [List.singleton_append, unitsOnto_one done rest (by omega), ha]
  · split
    · have ha : (UInt8.ofNat (0xc0 + unit / 64)).toNat = 0xc0 + unit / 64 := by simp; omega
      have hb : (UInt8.ofNat (0x80 + unit % 64)).toNat = 0x80 + unit % 64 := by simp; omega
      simp only [List.cons_append, List.nil_append]
      rw [unitsOnto_two done rest (by omega) (isContinuation_ofNat (by omega)), ha, hb]
      congr 2
      omega
    · have ha : (UInt8.ofNat (0xe0 + unit / 4096)).toNat = 0xe0 + unit / 4096 := by simp; omega
      have hb : (UInt8.ofNat (0x80 + unit / 64 % 64)).toNat = 0x80 + unit / 64 % 64 := by
        simp; omega
      have hc : (UInt8.ofNat (0x80 + unit % 64)).toNat = 0x80 + unit % 64 := by simp; omega
      simp only [List.cons_append, List.nil_append]
      rw [unitsOnto_three done rest (by omega) (isContinuation_ofNat (by omega))
        (isContinuation_ofNat (by omega)), ha, hb, hc]
      congr 2
      omega

theorem unitsOnto_encodeUnits (done : List Nat) {units : List Nat}
    (h : ∀ u ∈ units, u < 0x10000) :
    unitsOnto done (units.flatMap encodeUnit) = .ok (done.reverse ++ units) := by
  induction units generalizing done with
  | nil => simp [unitsOnto]
  | cons u units ih =>
    rw [List.flatMap_cons, unitsOnto_encodeUnit done (h u (by simp)),
      ih (u :: done) fun v hv => h v (by simp [hv])]
    simp

/-- No character is a surrogate, and none is beyond the last plane. -/
theorem char_range (c : Char) :
    c.toNat < 0xd800 ∨ (0xdfff < c.toNat ∧ c.toNat < 0x110000) := by
  have := c.valid
  simp only [UInt32.isValidChar, Nat.isValidChar] at this
  simp only [Char.toNat]
  omega

theorem charUnits_lt {c : Char} {u : Nat} (h : u ∈ charUnits c) : u < 0x10000 := by
  have hc := char_range c
  unfold charUnits at h
  split at h
  · simp only [List.mem_singleton] at h
    omega
  · simp only [List.mem_cons, List.not_mem_nil, or_false] at h
    omega

theorem charsOnto_single (done : List Char) {u : Nat} (rest : List Nat)
    (hl : isLeading u = false) (ht : isTrailing u = false) :
    charsOnto done (u :: rest) = charsOnto (Char.ofNat u :: done) rest := by
  rw [charsOnto.eq_def]
  simp [hl, ht]

theorem charsOnto_pair (done : List Char) {u v : Nat} (rest : List Nat)
    (hu : isLeading u = true) (hv : isTrailing v = true) :
    charsOnto done (u :: v :: rest) =
      charsOnto (Char.ofNat (0x10000 + (u - 0xd800) * 0x400 + (v - 0xdc00)) :: done) rest := by
  rw [charsOnto.eq_def]
  simp [hu, hv]

theorem charsOnto_charUnits (done : List Char) (c : Char) (rest : List Nat) :
    charsOnto done (charUnits c ++ rest) = charsOnto (c :: done) rest := by
  have hc := char_range c
  unfold charUnits
  split
  · have hl : isLeading c.toNat = false := by simp [isLeading]; omega
    have ht : isTrailing c.toNat = false := by simp [isTrailing]; omega
    rw [List.singleton_append, charsOnto_single done rest hl ht, Char.ofNat_toNat]
  · have hl : isLeading (0xd800 + (c.toNat - 0x10000) / 0x400) = true := by
      simp [isLeading]; omega
    have ht : isTrailing (0xdc00 + (c.toNat - 0x10000) % 0x400) = true := by
      simp [isTrailing]; omega
    have hn : 0x10000 + (0xd800 + (c.toNat - 0x10000) / 0x400 - 0xd800) * 0x400 +
        (0xdc00 + (c.toNat - 0x10000) % 0x400 - 0xdc00) = c.toNat := by omega
    simp only [List.cons_append, List.nil_append]
    rw [charsOnto_pair done rest hl ht, hn, Char.ofNat_toNat]

theorem charsOnto_flatMap (done cs : List Char) :
    charsOnto done (cs.flatMap charUnits) = .ok (done.reverse ++ cs) := by
  induction cs generalizing done with
  | nil => simp [charsOnto]
  | cons c cs ih =>
    rw [List.flatMap_cons, charsOnto_charUnits, ih]
    simp

theorem decodeChars_encodeChars (cs : List Char) : decodeChars (encodeChars cs) = .ok cs := by
  have hu : ∀ u ∈ cs.flatMap charUnits, u < 0x10000 := by
    intro u hu
    obtain ⟨c, _, hc⟩ := List.mem_flatMap.mp hu
    exact charUnits_lt hc
  rw [decodeChars, encodeChars, unitsOnto_encodeUnits [] hu]
  exact charsOnto_flatMap [] cs

theorem decode_encode (text : String) : decode (encode text) = .ok text := by
  simp [decode, encode, decodeChars_encodeChars]

end Classfile.ModifiedUtf8
