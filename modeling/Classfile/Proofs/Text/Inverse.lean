import Classfile.Proofs.Text.Forms

/-!
How far reading and writing text undo each other. What was written is read back. What was read was
made up of forms of its units and of nothing else; it is written as it was if these were the
shortest ones, and only then, for longer forms are accepted as well.
-/
namespace Classfile.ModifiedUtf8

variable {bytes piece : List UInt8} {pieces : List (List UInt8)} {unit : Nat} {units : List Nat}
  {text : String}

theorem encode_append (s t : String) : encode (s ++ t) = encode s ++ encode t := by
  simp [encode, encodeChars]

/-- No form has a zero byte, or one that begins a form of four bytes. -/
theorem Form.byte_range (h : Form piece unit) : ∀ b ∈ piece, 0 < b.toNat ∧ b.toNat < 0xf0 := by
  have hcont : ∀ {b : UInt8}, isContinuation b = true → 0 < b.toNat ∧ b.toNat < 0xf0 := by
    intro b hb
    have hb' : b.toNat / 64 = 2 := by simpa [isContinuation] using hb
    omega
  cases h with
  | one ha =>
    simp only [List.forall_mem_cons]
    exact ⟨by omega, List.forall_mem_nil _⟩
  | two ha hb =>
    simp only [List.forall_mem_cons]
    exact ⟨by omega, hcont hb, List.forall_mem_nil _⟩
  | three ha hb hc =>
    simp only [List.forall_mem_cons]
    exact ⟨by omega, hcont hb, hcont hc, List.forall_mem_nil _⟩

theorem byte_range_encode (text : String) : ∀ b ∈ encode text, 0 < b.toNat ∧ b.toNat < 0xf0 := by
  intro b hb
  obtain ⟨u, hu, hb⟩ := List.mem_flatMap.mp hb
  obtain ⟨c, -, hc⟩ := List.mem_flatMap.mp hu
  exact (form_encodeUnit (charUnits_lt hc)).byte_range b hb

/-- Written text can be put together and read back, and its bytes are never those that have another
meaning. -/
theorem encode_lossless (s t : String) : decode (encode s) = .ok s ∧
    encode (s ++ t) = encode s ++ encode t ∧ ∀ b ∈ encode s, 0 < b ∧ b < 0xf0 :=
  ⟨decode_encode s, encode_append s t, fun b hb => byte_range_encode s b hb⟩

/-! ### Reading what was not written here -/

theorem unitsOnto_flatten (done : List Nat) (h : List.Forall₂ Form pieces units) :
    unitsOnto done pieces.flatten = .ok (done.reverse ++ units) := by
  induction h generalizing done with
  | nil => simp [unitsOnto]
  | cons hp _ ih =>
    rw [List.flatten_cons]
    cases hp with
    | one ha =>
      rw [List.singleton_append, unitsOnto_one done _ ha, ih]
      simp
    | two ha hb =>
      rw [List.cons_append, List.singleton_append, unitsOnto_two done _ ha hb, ih]
      simp
    | three ha hb hc =>
      rw [List.cons_append, List.cons_append, List.singleton_append,
        unitsOnto_three done _ ha hb hc, ih]
      simp

theorem decode_of_spells (h : Spells bytes text) : decode bytes = .ok text := by
  obtain ⟨pieces, hf, rfl⟩ := h
  have hc : decodeChars pieces.flatten = .ok text.toList := by
    rw [decodeChars, unitsOnto_flatten [] hf]
    exact charsOnto_flatMap [] text.toList
  rw [decode, hc]
  simp

theorem decode_eq_ok_iff : decode bytes = .ok text ↔ Spells bytes text :=
  ⟨spells_of_decode, decode_of_spells⟩

theorem encode_eq_iff : encode text = bytes ↔ decode bytes = .ok text ∧ IsShortest bytes := by
  constructor
  · rintro rfl
    exact ⟨decode_encode text, isShortest_encode text⟩
  · rintro ⟨h, hs⟩
    exact encode_of_isShortest h hs

/-- A text is read from all of its spellings and from nothing else. In exactly one of them all forms
are the shortest ones, and this is the one that is written. -/
theorem decode_spellings (bytes : List UInt8) (text : String) :
    (decode bytes = .ok text ↔ Spells bytes text) ∧
      (encode text = bytes ↔ decode bytes = .ok text ∧ IsShortest bytes) ∧
      ∃! spelling, decode spelling = .ok text ∧ IsShortest spelling := by
  refine ⟨decode_eq_ok_iff, encode_eq_iff, encode text, encode_eq_iff.mp rfl, ?_⟩
  intro spelling h
  exact (encode_eq_iff.mpr h).symm

/-- A letter of one byte is read from two bytes as well, and is not written like this. -/
theorem decode_overlong : decode [0xc1, 0x81] = .ok "A" ∧ decode [0x41] = .ok "A" ∧
    encode "A" ≠ [0xc1, 0x81] := by
  decide +kernel

end Classfile.ModifiedUtf8
