import Classfile.Proofs.Annotation.Binary
import Classfile.Proofs.Binary.Codec
import Classfile.Proofs.Image.Spelling

/-!
Annotations are made of exactly the bytes that they are written as, at every level of nesting. A
value can be written just if its counts have room, and only such values are ever read.
-/
namespace Classfile

open Reader

variable {bytes : List UInt8} {done pieces : List (List UInt8)}

namespace ElementValue

/-- No level of the value has more entries than two bytes can count. -/
inductive Bounded : ElementValue → Prop
  | number {type : BaseType} {value : ConstantIndex} : Bounded (number type value)
  | string {text : ConstantIndex} : Bounded (string text)
  | enumeration {type name : ConstantIndex} : Bounded (enumeration type name)
  | typeLiteral {descriptor : ConstantIndex} : Bounded (typeLiteral descriptor)
  | nested {type : ConstantIndex} {elements : List (ConstantIndex × ElementValue)}
      (count : elements.length ≤ 65535) (each : ∀ element ∈ elements, Bounded element.2) :
      Bounded (nested type elements)
  | array {values : List ElementValue} (count : values.length ≤ 65535)
      (each : ∀ v ∈ values, Bounded v) : Bounded (array values)

variable {v : ElementValue} {values : List ElementValue}
  {elements : List (ConstantIndex × ElementValue)} {type : ConstantIndex} {e : FormatError}

/-- The value can be written. -/
def Writable (v : ElementValue) : Prop := ∃ bytes, v.write = .ok bytes

theorem exists_writeValuesOnto (done : List (List UInt8)) (h : ∀ v ∈ values, v.Writable) :
    ∃ bytes, writeValuesOnto done values = .ok bytes := by
  induction values generalizing done with
  | nil => exact ⟨_, rfl⟩
  | cons v values ih =>
    obtain ⟨⟨b, hb⟩, h⟩ := List.forall_mem_cons.mp h
    unfold writeValuesOnto
    rw [hb]
    exact ih _ h

theorem exists_writeElementsOnto (done : List (List UInt8))
    (h : ∀ element ∈ elements, element.2.Writable) :
    ∃ bytes, writeElementsOnto done elements = .ok bytes := by
  induction elements generalizing done with
  | nil => exact ⟨_, rfl⟩
  | cons element elements ih =>
    obtain ⟨⟨b, hb⟩, h⟩ := List.forall_mem_cons.mp h
    unfold writeElementsOnto
    rw [hb]
    exact ih _ h

theorem writeValuesOnto_of_pieces
    (h : List.Forall₂ (fun piece v => v.write = .ok piece) pieces values) :
    writeValuesOnto done values = .ok (done.reverse.flatten ++ pieces.flatten) := by
  induction h generalizing done with
  | nil => simp [writeValuesOnto]
  | cons hv _ ih =>
    rw [writeValuesOnto, hv]
    simp [ih]

theorem writeElementsOnto_of_pieces
    (h : List.Forall₂ (fun piece element => WritesElement element piece) pieces elements) :
    writeElementsOnto done elements = .ok (done.reverse.flatten ++ pieces.flatten) := by
  induction h generalizing done with
  | nil => simp [writeElementsOnto]
  | @cons piece element pieces elements hv _ ih =>
    obtain ⟨b, hb, rfl⟩ := hv
    obtain ⟨name, v⟩ := element
    rw [writeElementsOnto, hb]
    simp [ih]

theorem write_nested_of_count (hc : elements.length ≤ 65535)
    (h : writeElementsOnto [] elements = .ok bytes) : (nested type elements).write = .ok
      (UInt8.ofNat '@'.toNat :: (type.write ++ BigEndian.pack 2 elements.length ++ bytes)) := by
  rw [write, if_neg (Nat.not_lt.mpr hc), h]
  rfl

theorem write_array_of_count (hc : values.length ≤ 65535)
    (h : writeValuesOnto [] values = .ok bytes) : (array values).write = .ok
      (UInt8.ofNat '['.toNat :: (BigEndian.pack 2 values.length ++ bytes)) := by
  rw [write, if_neg (Nat.not_lt.mpr hc), h]
  rfl

theorem Bounded.writable (h : v.Bounded) : v.Writable := by
  induction h with
  | nested count _ ih =>
    obtain ⟨body, hb⟩ := exists_writeElementsOnto [] ih
    exact ⟨_, write_nested_of_count count hb⟩
  | array count _ ih =>
    obtain ⟨body, hb⟩ := exists_writeValuesOnto [] ih
    exact ⟨_, write_array_of_count count hb⟩
  | _ => exact ⟨_, rfl⟩

/-- The letter that was found is the one that is written. -/
theorem tag_of_letter {tag : UInt8} {letter : Char} (h : Char.ofNat tag.toNat = letter) :
    UInt8.ofNat letter.toNat = tag := by
  have hv : tag.toNat.isValidChar := .inl (Nat.lt_trans tag.toNat_lt (by decide))
  rw [← h, ModifiedUtf8.toNat_ofNat_of_valid hv, UInt8.ofNat_toNat]

/-- The value is written as these bytes, and its counts have room. -/
def Spelled (piece : List UInt8) (v : ElementValue) : Prop := v.write = .ok piece ∧ v.Bounded

/-- The elements behind their count. -/
theorem takes_elements {r : Reader ElementValue} (h : r.Takes Spelled) :
    (counted do return (← ConstantIndex.read, ← r) : Reader _).Takes fun piece elements =>
      ∃ body, piece = BigEndian.pack 2 elements.length ++ body ∧ elements.length ≤ 65535 ∧
        writeElementsOnto [] elements = .ok body ∧ ∀ element ∈ elements, element.2.Bounded := by
  have he : (do return (← ConstantIndex.read, ← r) : Reader _).Takes
      fun piece element => WritesElement element piece ∧ element.2.Bounded := by
    refine ConstantIndex.takes_read.bind ?_
    rintro _ name rfl
    refine h.map ?_
    rintro piece v ⟨hw, hb⟩
    exact ⟨⟨piece, hw, rfl⟩, hb⟩
  intro input elements rest hr
  obtain ⟨_, rfl, pieces, rfl, hp, hl⟩ := he.counted hr
  obtain ⟨hw, hb⟩ := forall_of_pieces hp
  exact ⟨_, rfl, _, rfl, hl, writeElementsOnto_of_pieces hw, hb⟩

theorem takes_read (depth : Nat) : (read depth).Takes Spelled := by
  induction depth with
  | zero => exact takes_fail
  | succ depth ih =>
    refine takes_u8.bind ?_
    rintro _ tag rfl
    dsimp only
    split
    · rename_i type ht
      refine ConstantIndex.takes_read.map ?_
      rintro _ value rfl
      rw [← tag_of_letter (BaseType.letter_of_ofLetter? ht).symm]
      exact ⟨rfl, .number⟩
    split
    · rename_i ht
      refine ConstantIndex.takes_read.map ?_
      rintro _ text rfl
      rw [← tag_of_letter ht]
      exact ⟨rfl, .string⟩
    split
    · rename_i ht
      refine ConstantIndex.takes_read.bind ?_
      rintro _ type rfl
      refine ConstantIndex.takes_read.map ?_
      rintro _ name rfl
      rw [← tag_of_letter ht]
      exact ⟨rfl, .enumeration⟩
    split
    · rename_i ht
      refine ConstantIndex.takes_read.map ?_
      rintro _ descriptor rfl
      rw [← tag_of_letter ht]
      exact ⟨rfl, .typeLiteral⟩
    split
    · -- a nested annotation
      rename_i ht
      refine ConstantIndex.takes_read.bind ?_
      rintro _ type rfl
      refine (takes_elements ih).map ?_
      rintro _ elements ⟨body, rfl, hl, hw, hb⟩
      rw [← tag_of_letter ht, ← List.append_assoc type.write]
      exact ⟨write_nested_of_count hl hw, .nested hl hb⟩
    split
    · rename_i ht
      refine ih.counted.map ?_
      rintro _ values ⟨pieces, rfl, hp, hl⟩
      obtain ⟨hw, hb⟩ := forall_of_pieces hp
      rw [← tag_of_letter ht]
      exact ⟨write_array_of_count hl (writeValuesOnto_of_pieces hw), .array hl hb⟩
    · exact takes_fail

/-! ### Why a value is not written -/

mutual

theorem write_eq_error : (v : ElementValue) → v.write = .error e → e = .tooManyElements
  | number .., h | string _, h | enumeration .., h | typeLiteral _, h => by cases h
  | nested type elements, h => by
    unfold write at h
    split at h
    · exact (Except.error.inj h).symm
    · rcases Except.bind_eq_error.mp h with h | ⟨_, -, h⟩
      · exact writeElementsOnto_eq_error elements h
      · cases h
  | array values, h => by
    unfold write at h
    split at h
    · exact (Except.error.inj h).symm
    · rcases Except.bind_eq_error.mp h with h | ⟨_, -, h⟩
      · exact writeValuesOnto_eq_error values h
      · cases h

theorem writeValuesOnto_eq_error {done : List (List UInt8)} :
    (values : List ElementValue) → writeValuesOnto done values = .error e → e = .tooManyElements
  | [], h => by cases h
  | v :: values, h => by
    unfold writeValuesOnto at h
    split at h
    · exact writeValuesOnto_eq_error values h
    · rename_i hv
      cases h
      exact write_eq_error v hv

theorem writeElementsOnto_eq_error {done : List (List UInt8)} :
    (elements : List (ConstantIndex × ElementValue)) →
      writeElementsOnto done elements = .error e → e = .tooManyElements
  | [], h => by cases h
  | (name, v) :: elements, h => by
    unfold writeElementsOnto at h
    split at h
    · exact writeElementsOnto_eq_error elements h
    · rename_i hv
      cases h
      exact write_eq_error v hv

end

end ElementValue

namespace Annotation

variable {a : Annotation} {e : FormatError}

/-- The annotation can be written. -/
def Writable (a : Annotation) : Prop := ∃ bytes, a.write = .ok bytes

/-- The annotation and its values have no more entries than two bytes can count. -/
structure Bounded (a : Annotation) : Prop where
  count : a.elements.length ≤ 65535
  each : ∀ element ∈ a.elements, element.2.Bounded

theorem write_of_count {body : List UInt8} (hc : a.elements.length ≤ 65535)
    (h : ElementValue.writeElementsOnto [] a.elements = .ok body) :
    a.write = .ok (a.type.write ++ BigEndian.pack 2 a.elements.length ++ body) := by
  rw [write, if_neg (Nat.not_lt.mpr hc), h]
  rfl

theorem Bounded.writable (h : a.Bounded) : a.Writable := by
  obtain ⟨body, hb⟩ := ElementValue.exists_writeElementsOnto [] fun element he =>
    (h.each element he).writable
  exact ⟨_, write_of_count h.count hb⟩

/-- The annotation is written as these bytes, and its counts have room. -/
def Spelled (piece : List UInt8) (a : Annotation) : Prop := a.write = .ok piece ∧ a.Bounded

theorem takes_read : read.Takes Spelled := by
  intro input a rest h
  have ht : (readWithin input.length).Takes Spelled := by
    refine ConstantIndex.takes_read.bind ?_
    rintro _ type rfl
    refine (ElementValue.takes_elements (ElementValue.takes_read _)).map ?_
    rintro _ elements ⟨body, rfl, hl, hw, hb⟩
    rw [← List.append_assoc]
    exact ⟨write_of_count (a := ⟨type, elements⟩) hl hw, hl, hb⟩
  exact ht h

theorem codec : Codec read write Bounded where
  takes := takes_read
  writes _ h := h.writable
  yields _ _ _ h := yields_read h

theorem write_eq_error (h : a.write = .error e) : e = .tooManyElements := by
  unfold write at h
  split at h
  · exact (Except.error.inj h).symm
  · rcases Except.bind_eq_error.mp h with h | ⟨_, -, h⟩
    · exact ElementValue.writeElementsOnto_eq_error _ h
    · cases h

end Annotation

end Classfile
