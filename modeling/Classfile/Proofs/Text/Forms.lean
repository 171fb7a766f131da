import Classfile.Proofs.Text.ModifiedUtf8
import Mathlib.Data.List.Forall2

/-!
What is read as text. A unit has one form or several, and all of them are accepted. Writing takes
the shortest one, so a text that was read gets no longer when it is written again, and it stays as
it is if all of its units were in their shortest forms.
-/
namespace Classfile.ModifiedUtf8

variable {bytes piece : List UInt8} {unit : Nat} {units all : List Nat} {cs : List Char}
  {text : String}

/-- The bytes that stand for one 16-bit unit. -/
inductive Form : List UInt8 → Nat → Prop
  | one {a : UInt8} (ha : 0 < a.toNat ∧ a.toNat < 0x80) : Form [a] a.toNat
  | two {a b : UInt8} (ha : a.toNat / 32 = 6) (hb : isContinuation b = true) :
    Form [a, b] (a.toNat % 32 * 64 + b.toNat % 64)
  | three {a b c : UInt8} (ha : a.toNat / 16 = 14) (hb : isContinuation b = true)
    (hc : isContinuation c = true) :
    Form [a, b, c] (a.toNat % 16 * 4096 + b.toNat % 64 * 64 + c.toNat % 64)

/-- A form of a unit that has no shorter one. -/
structure ShortestForm (piece : List UInt8) (unit : Nat) : Prop where
  form : Form piece unit
  least : ∀ other, Form other unit → piece.length ≤ other.length

/-- Every unit of the text is in its shortest form. -/
def IsShortest (bytes : List UInt8) : Prop :=
  ∃ pieces units, List.Forall₂ ShortestForm pieces units ∧ bytes = pieces.flatten

theorem Form.lt (h : Form piece unit) : unit < 0x10000 := by
  cases h <;> omega

theorem Form.length_encodeUnit_le (h : Form piece unit) :
    (encodeUnit unit).length ≤ piece.length := by
  unfold encodeUnit
  cases h with
  | one ha =>
    rw [if_pos ha]
    exact Nat.le_refl 1
  | two ha hb =>
    split
    · exact Nat.le_succ 1
    · rw [if_pos (by omega)]
      exact Nat.le_refl 2
  | three ha hb hc =>
    split
    · exact Nat.le_add_right 1 2
    · split
      · exact Nat.le_succ 2
      · exact Nat.le_refl 3

theorem ofNat_continuation {b : UInt8} {n : Nat} (hb : isContinuation b = true)
    (hn : n = b.toNat % 64) : UInt8.ofNat (0x80 + n) = b := by
  have hb' : b.toNat / 64 = 2 := by simpa [isContinuation] using hb
  have he : 0x80 + n = b.toNat := by omega
  rw [he, UInt8.ofNat_toNat]

/-- A unit has no two forms of the length in which it is written. -/
theorem Form.eq_encodeUnit (h : Form piece unit) (hl : piece.length ≤ (encodeUnit unit).length) :
    piece = encodeUnit unit := by
  unfold encodeUnit at hl ⊢
  cases h with
  | one ha =>
    rw [if_pos ha, UInt8.ofNat_toNat]
  | @two a b ha hb =>
    split at hl
    · exact absurd hl (Nat.not_succ_le_self 1)
    · rename_i h1
      have h2 : a.toNat % 32 * 64 + b.toNat % 64 < 0x800 := by omega
      have he : 0xc0 + (a.toNat % 32 * 64 + b.toNat % 64) / 64 = a.toNat := by omega
      rw [if_neg h1, if_pos h2, he, UInt8.ofNat_toNat, ofNat_continuation hb (by omega)]
  | @three a b c ha hb hc =>
    split at hl
    · exact absurd hl (Nat.not_le_of_lt (Nat.le_add_left 2 1))
    · rename_i h1
      split at hl
      · exact absurd hl (Nat.not_succ_le_self 2)
      · rename_i h2
        have he : 0xe0 + (a.toNat % 16 * 4096 + b.toNat % 64 * 64 + c.toNat % 64) / 4096 =
            a.toNat := by omega
        rw [if_neg h1, if_neg h2, he, UInt8.ofNat_toNat, ofNat_continuation hb (by omega),
          ofNat_continuation hc (by omega)]

theorem form_encodeUnit (h : unit < 0x10000) : Form (encodeUnit unit) unit := by
  unfold encodeUnit
  split
  · rename_i h1
    have ha : (UInt8.ofNat unit).toNat = unit := by simp; omega
    have hf := Form.one (a := UInt8.ofNat unit) (by rwa [ha])
    rwa [ha] at hf
  · split
    · have ha : (UInt8.ofNat (0xc0 + unit / 64)).toNat = 0xc0 + unit / 64 := by simp; omega
      have hb : (UInt8.ofNat (0x80 + unit % 64)).toNat = 0x80 + unit % 64 := by simp; omega
      have hf := Form.two (a := UInt8.ofNat (0xc0 + unit / 64)) (by omega)
        (isContinuation_ofNat (n := unit % 64) (by omega))
      have he : (0xc0 + unit / 64) % 32 * 64 + (0x80 + unit % 64) % 64 = unit := by omega
      rwa [ha, hb, he] at hf
    · have ha : (UInt8.ofNat (0xe0 + unit / 4096)).toNat = 0xe0 + unit / 4096 := by simp; omega
      have hb : (UInt8.ofNat (0x80 + unit / 64 % 64)).toNat = 0x80 + unit / 64 % 64 := by
        simp; omega
      have hc : (UInt8.ofNat (0x80 + unit % 64)).toNat = 0x80 + unit % 64 := by simp; omega
      have hf := Form.three (a := UInt8.ofNat (0xe0 + unit / 4096)) (by omega)
        (isContinuation_ofNat (n := unit / 64 % 64) (by omega))
        (isContinuation_ofNat (n := unit % 64) (by omega))
      have he : (0xe0 + unit / 4096) % 16 * 4096 + (0x80 + unit / 64 % 64) % 64 * 64 +
          (0x80 + unit % 64) % 64 = unit := by omega
      rwa [ha, hb, hc, he] at hf

/-- The form in which a unit is written is the only shortest one. -/
theorem ShortestForm.eq_encodeUnit (h : ShortestForm piece unit) : piece = encodeUnit unit :=
  h.form.eq_encodeUnit (h.least _ (form_encodeUnit h.form.lt))

theorem shortestForm_encodeUnit (h : unit < 0x10000) : ShortestForm (encodeUnit unit) unit :=
  ⟨form_encodeUnit h, fun _ hf => hf.length_encodeUnit_le⟩

theorem isShortest_encode (text : String) : IsShortest (encode text) := by
  refine ⟨(text.toList.flatMap charUnits).map encodeUnit, text.toList.flatMap charUnits, ?_, rfl⟩
  rw [List.forall₂_map_left_iff, List.forall₂_same]
  intro u hu
  obtain ⟨c, -, hc⟩ := List.mem_flatMap.mp hu
  exact shortestForm_encodeUnit (charUnits_lt hc)

theorem exists_forms {done : List Nat} (h : unitsOnto done bytes = .ok all) :
    ∃ pieces units, List.Forall₂ Form pieces units ∧ bytes = pieces.flatten ∧
      all = done.reverse ++ units := by
  fun_induction unitsOnto done bytes with
  | case1 done =>
    cases h
    exact ⟨[], [], .nil, rfl, (List.append_nil _).symm⟩
  | case2 done a rest ha ih =>
    obtain ⟨pieces, units, hf, rfl, rfl⟩ := ih h
    exact ⟨[a] :: pieces, _ :: units, .cons (.one ha) hf, rfl, by simp⟩
  | case3 done a h1 ha b rest hb ih =>
    obtain ⟨pieces, units, hf, rfl, rfl⟩ := ih h
    exact ⟨[a, b] :: pieces, _ :: units, .cons (.two ha hb) hf, rfl, by simp⟩
  | case6 done a h1 h2 ha b c rest hbc ih =>
    obtain ⟨hb, hc⟩ := Bool.and_eq_true_iff.mp hbc
    obtain ⟨pieces, units, hf, rfl, rfl⟩ := ih h
    exact ⟨[a, b, c] :: pieces, _ :: units, .cons (.three ha hb hc) hf, rfl, by simp⟩
  | _ => cases h

theorem toNat_ofNat_of_valid {n : Nat} (h : n.isValidChar) : (Char.ofNat n).toNat = n := by
  rw [Char.ofNat, dif_pos h]
  rfl

/-- A character that was put together from units falls apart into these again. -/
theorem flatMap_charUnits {done : List Char} (h : charsOnto done units = .ok cs)
    (hu : ∀ u ∈ units, u < 0x10000) :
    ∃ new, cs = done.reverse ++ new ∧ new.flatMap charUnits = units := by
  fun_induction charsOnto done units with
  | case1 done =>
    cases h
    exact ⟨[], (List.append_nil _).symm, rfl⟩
  | case2 done u hl v rest ht ih =>
    obtain ⟨new, rfl, hn⟩ := ih h fun x hx => hu x (by simp [hx])
    refine ⟨Char.ofNat (0x10000 + (u - 0xd800) * 0x400 + (v - 0xdc00)) :: new, by simp, ?_⟩
    simp only [isLeading, isTrailing, Bool.and_eq_true, decide_eq_true_eq] at hl ht
    have hv : (0x10000 + (u - 0xd800) * 0x400 + (v - 0xdc00)).isValidChar := by
      simp only [Nat.isValidChar]
      omega
    rw [List.flatMap_cons, hn, charUnits, toNat_ofNat_of_valid hv, if_neg (by omega)]
    simp only [List.cons_append, List.nil_append, List.cons.injEq, and_true]
    omega
  | case6 done u rest hl ht ih =>
    obtain ⟨new, rfl, hn⟩ := ih h fun x hx => hu x (by simp [hx])
    refine ⟨Char.ofNat u :: new, by simp, ?_⟩
    have hb := hu u List.mem_cons_self
    simp only [isLeading, isTrailing, Bool.and_eq_true, decide_eq_true_eq] at hl ht
    have hv : u.isValidChar := by
      simp only [Nat.isValidChar]
      omega
    rw [List.flatMap_cons, hn, charUnits, toNat_ofNat_of_valid hv, if_pos hb,
      List.singleton_append]
  | _ => cases h

theorem Form.forall_lt {pieces : List (List UInt8)} (h : List.Forall₂ Form pieces units) :
    ∀ u ∈ units, u < 0x10000 := by
  induction h with
  | nil => simp
  | cons hf _ ih => exact List.forall_mem_cons.mpr ⟨hf.lt, ih⟩

/-- The 16-bit units of a text. -/
def unitsOf (text : String) : List Nat := text.toList.flatMap charUnits

/-- The bytes are forms of the units of the text, one behind the other. -/
def Spells (bytes : List UInt8) (text : String) : Prop :=
  ∃ pieces, List.Forall₂ Form pieces (unitsOf text) ∧ bytes = pieces.flatten

theorem spells_of_decode (h : decode bytes = .ok text) : Spells bytes text := by
  obtain ⟨cs, hc, rfl⟩ := Except.map_eq_ok.mp h
  obtain ⟨all, hu, ha⟩ := Except.bind_eq_ok.mp hc
  obtain ⟨pieces, units, hf, rfl, rfl⟩ := exists_forms hu
  obtain ⟨new, rfl, hn⟩ := flatMap_charUnits ha (Form.forall_lt hf)
  refine ⟨pieces, ?_, rfl⟩
  rw [unitsOf, String.toList_ofList, hn]
  exact hf

/-- No text takes more bytes when it is written again. -/
theorem length_encode_le (h : decode bytes = .ok text) :
    (encode text).length ≤ bytes.length := by
  obtain ⟨pieces, hf, rfl⟩ := spells_of_decode h
  change ((unitsOf text).flatMap encodeUnit).length ≤ _
  generalize unitsOf text = units at hf
  clear h
  induction hf with
  | nil => exact Nat.le_refl 0
  | cons hp _ ih =>
    rw [List.flatMap_cons, List.flatten_cons, List.length_append, List.length_append]
    exact Nat.add_le_add hp.length_encodeUnit_le ih

/-- A text in shortest forms is written as it was. -/
theorem encode_of_isShortest (h : decode bytes = .ok text) (hs : IsShortest bytes) :
    encode text = bytes := by
  obtain ⟨pieces, units, hf, rfl⟩ := hs
  have hp : pieces.flatten = units.flatMap encodeUnit := by
    clear h
    induction hf with
    | nil => rfl
    | cons hp _ ih => rw [List.flatten_cons, List.flatMap_cons, ih, hp.eq_encodeUnit]
  have hlt : ∀ u ∈ units, u < 0x10000 := Form.forall_lt (hf.imp fun _ _ hp => hp.form)
  obtain ⟨cs, hc, rfl⟩ := Except.map_eq_ok.mp h
  rw [hp, decodeChars, unitsOnto_encodeUnits [] hlt] at hc
  obtain ⟨new, rfl, hn⟩ := flatMap_charUnits hc hlt
  rw [List.reverse_nil, List.nil_append] at hn
  simp [encode, encodeChars, hn, hp]

end Classfile.ModifiedUtf8
