import Classfile.Annotation.Binary
import Classfile.Proofs.Constant.Binary
import Classfile.Proofs.Descriptor.Parser

/-!
Annotations are read back from their bytes. A value is not nested more deeply than it has bytes, so
the number of bytes that are there is enough of a bound for the reader.
-/
namespace Classfile

open Reader

variable {bytes : List UInt8}

theorem BaseType.ofNat_letter (type : BaseType) :
    Char.ofNat (UInt8.ofNat type.letter.toNat).toNat = type.letter := by
  cases type <;> decide

theorem Reader.yields_countedPieces {α : Type} {r : Reader α} {xs : List α}
    {pieces : List (List UInt8)} (hc : xs.length ≤ 65535)
    (h : List.Forall₂ (fun piece x => r.Yields piece x) pieces xs) :
    (counted r).Yields (BigEndian.pack 2 xs.length ++ pieces.flatten) xs := by
  have hn : (UInt16.ofNat xs.length).toNat = xs.length :=
    UInt16.toNat_ofNat_of_lt' (Nat.lt_succ_of_le hc)
  refine (yields_count hc).bind ?_
  rw [hn]
  exact yields_times h

namespace ElementValue

variable {done : List (List UInt8)} {values : List ElementValue}
  {elements : List (ConstantIndex × ElementValue)} {v : ElementValue}

/-- The element and its bytes: those of the name, then those of the value. -/
def WritesElement (element : ConstantIndex × ElementValue) (piece : List UInt8) : Prop :=
  ∃ b, element.2.write = .ok b ∧ piece = element.1.write ++ b

theorem writeValuesOnto_eq_ok (h : writeValuesOnto done values = .ok bytes) :
    ∃ pieces, List.Forall₂ (fun v piece => v.write = .ok piece) values pieces ∧
      bytes = done.reverse.flatten ++ pieces.flatten := by
  induction values generalizing done with
  | nil =>
    cases h
    exact ⟨[], .nil, by simp⟩
  | cons v values ih =>
    unfold writeValuesOnto at h
    split at h
    · rename_i b hb
      obtain ⟨pieces, hp, rfl⟩ := ih h
      exact ⟨b :: pieces, .cons hb hp, by simp⟩
    · cases h

theorem writeElementsOnto_eq_ok (h : writeElementsOnto done elements = .ok bytes) :
    ∃ pieces, List.Forall₂ WritesElement elements pieces ∧
      bytes = done.reverse.flatten ++ pieces.flatten := by
  induction elements generalizing done with
  | nil =>
    cases h
    exact ⟨[], .nil, by simp⟩
  | cons element elements ih =>
    obtain ⟨name, value⟩ := element
    unfold writeElementsOnto at h
    split at h
    · rename_i b hb
      obtain ⟨pieces, hp, rfl⟩ := ih h
      exact ⟨(name.write ++ b) :: pieces, .cons ⟨b, hb, rfl⟩ hp, by simp⟩
    · cases h

theorem length_le_of_mem {pieces : List (List UInt8)} {piece : List UInt8} (h : piece ∈ pieces) :
    piece.length ≤ pieces.flatten.length := by
  exact (List.sublist_flatten_of_mem h).length_le

/-- Pieces that are each read back when there is enough depth for their bytes. -/
theorem yields_pieces {α : Type} {write : α → List UInt8 → Prop} {r : Reader α} {xs : List α}
    {pieces : List (List UInt8)} {depth : Nat} (hp : List.Forall₂ write xs pieces)
    (hd : pieces.flatten.length ≤ depth)
    (h : ∀ x piece, write x piece → piece.length ≤ depth → r.Yields piece x) :
    List.Forall₂ (fun piece x => r.Yields piece x) pieces xs := by
  have hl : ∀ piece ∈ pieces, piece.length ≤ depth :=
    fun piece hm => Nat.le_trans (length_le_of_mem hm) hd
  clear hd
  induction hp with
  | nil => exact .nil
  | @cons x piece xs pieces hx _ ih =>
    exact .cons (h x piece hx (hl piece (by simp))) (ih fun y hy => hl y (by simp [hy]))

theorem yields_element {depth : Nat} {element : ConstantIndex × ElementValue} {piece : List UInt8}
    (ih : ∀ (v : ElementValue) (b : List UInt8), v.write = .ok b → b.length ≤ depth →
      (read depth).Yields b v)
    (h : WritesElement element piece) (hd : piece.length ≤ depth) :
    (do return (← ConstantIndex.read, ← read depth) : Reader _).Yields piece element := by
  obtain ⟨b, hb, rfl⟩ := h
  rw [List.length_append] at hd
  exact element.1.yields_read.bind ((ih _ b hb (by omega)).map rfl)

theorem yields_elements {depth : Nat} (hc : elements.length ≤ 65535)
    (ih : ∀ (v : ElementValue) (b : List UInt8), v.write = .ok b → b.length ≤ depth →
      (read depth).Yields b v)
    (h : writeElementsOnto [] elements = .ok bytes) (hd : bytes.length ≤ depth) :
    (counted do return (← ConstantIndex.read, ← read depth) : Reader _).Yields
      (BigEndian.pack 2 elements.length ++ bytes) elements := by
  obtain ⟨pieces, hp, rfl⟩ := writeElementsOnto_eq_ok h
  rw [List.reverse_nil, List.flatten_nil, List.nil_append] at hd ⊢
  exact yields_countedPieces hc (yields_pieces hp hd fun _ _ => yields_element ih)

theorem write_nested {type : ConstantIndex} (h : (nested type elements).write = .ok bytes) :
    elements.length ≤ 65535 ∧ ∃ body, writeElementsOnto [] elements = .ok body ∧
      bytes = UInt8.ofNat '@'.toNat ::
        (type.write ++ BigEndian.pack 2 elements.length ++ body) := by
  unfold write at h
  split at h
  · cases h
  · obtain ⟨body, hb, h⟩ := Except.bind_eq_ok.mp h
    cases h
    exact ⟨by omega, body, hb, rfl⟩

theorem write_array (h : (array values).write = .ok bytes) :
    values.length ≤ 65535 ∧ ∃ body, writeValuesOnto [] values = .ok body ∧
      bytes = UInt8.ofNat '['.toNat :: (BigEndian.pack 2 values.length ++ body) := by
  unfold write at h
  split at h
  · cases h
  · obtain ⟨body, hb, h⟩ := Except.bind_eq_ok.mp h
    cases h
    exact ⟨by omega, body, hb, rfl⟩

/-- The letter at least is written. -/
theorem length_pos_of_write (h : v.write = .ok bytes) : 0 < bytes.length := by
  cases v with
  | nested type elements =>
    obtain ⟨-, body, -, rfl⟩ := write_nested h
    exact Nat.succ_pos _
  | array values =>
    obtain ⟨-, body, -, rfl⟩ := write_array h
    exact Nat.succ_pos _
  | _ => cases h; exact Nat.succ_pos _

theorem yields_read {depth : Nat} (h : v.write = .ok bytes) (hd : bytes.length ≤ depth) :
    (read depth).Yields bytes v := by
  induction depth generalizing v bytes with
  | zero =>
    have hp := length_pos_of_write h
    omega
  | succ depth ih =>
    cases v with
    | number type value =>
      cases h
      refine (yields_u8 _).bind ?_
      simp only [type.ofNat_letter, BaseType.ofLetter?_letter]
      exact value.yields_read.map rfl
    | string text =>
      cases h
      exact (yields_u8 _).bind (text.yields_read.map (f := string) rfl)
    | enumeration type name =>
      cases h
      exact (yields_u8 _).bind
        (type.yields_read.bind (name.yields_read.map (f := enumeration type) rfl))
    | typeLiteral descriptor =>
      cases h
      exact (yields_u8 _).bind (descriptor.yields_read.map (f := typeLiteral) rfl)
    | nested type elements =>
      obtain ⟨hc, body, hb, rfl⟩ := write_nested h
      simp only [List.length_cons, List.length_append] at hd
      have hy := yields_elements hc (fun _ _ hw hl => ih hw hl) hb (by omega)
      rw [List.append_assoc]
      exact (yields_u8 _).bind (type.yields_read.bind (hy.map (f := nested type) rfl))
    | array values =>
      obtain ⟨hc, body, hb, rfl⟩ := write_array h
      obtain ⟨pieces, hp, rfl⟩ := writeValuesOnto_eq_ok hb
      rw [List.reverse_nil, List.flatten_nil, List.nil_append] at hd ⊢
      simp only [List.length_cons, List.length_append] at hd
      have hy := yields_countedPieces hc (yields_pieces hp (by omega) fun _ _ hw hl => ih hw hl)
      exact (yields_u8 _).bind (hy.map (f := array) rfl)

end ElementValue

namespace Annotation

/-- The reader of an annotation whose values have at most `depth` levels. -/
def readWithin (depth : Nat) : Reader Annotation := do
  let type ← ConstantIndex.read
  let elements ← Reader.counted do return (← ConstantIndex.read, ← ElementValue.read depth)
  return ⟨type, elements⟩

theorem yields_readWithin {a : Annotation} {depth : Nat} (h : a.write = .ok bytes)
    (hd : bytes.length ≤ depth) : (readWithin depth).Yields bytes a := by
  unfold write at h
  split at h
  · cases h
  · obtain ⟨body, hb, h⟩ := Except.bind_eq_ok.mp h
    cases h
    have hl : body.length ≤ depth := by
      simp only [List.length_append] at hd
      omega
    have hy := ElementValue.yields_elements (by omega)
      (fun _ _ hw hl => ElementValue.yields_read hw hl) hb hl
    rw [List.append_assoc]
    exact a.type.yields_read.bind (hy.map rfl)

/-- An annotation has bytes, if only those of its type. -/
theorem length_pos_of_write {a : Annotation} (h : a.write = .ok bytes) : 0 < bytes.length := by
  unfold write at h
  split at h
  · cases h
  · obtain ⟨body, -, h⟩ := Except.bind_eq_ok.mp h
    cases h
    simp only [ConstantIndex.write, Writer.u16, List.length_append, BigEndian.length_pack]
    omega

theorem yields_read {a : Annotation} (h : a.write = .ok bytes) : read.Yields bytes a := by
  intro rest
  have hl : bytes.length ≤ (bytes ++ rest).length := by simp
  exact yields_readWithin h hl rest

end Annotation

section

theorem VisibleAnnotations.yields_read {p : VisibleAnnotations} (h : Payload.write p = .ok bytes) :
    (Payload.read : Reader VisibleAnnotations).Yields bytes p :=
  (yields_counted (fun _ _ _ hw => Annotation.yields_read hw) h).map rfl

theorem InvisibleAnnotations.yields_read {p : InvisibleAnnotations}
    (h : Payload.write p = .ok bytes) :
    (Payload.read : Reader InvisibleAnnotations).Yields bytes p :=
  (yields_counted (fun _ _ _ hw => Annotation.yields_read hw) h).map rfl

theorem yields_readParameterAnnotations {parameters : List (List Annotation)}
    (h : writeParameterAnnotations parameters = .ok bytes) :
    readParameterAnnotations.Yields bytes parameters := by
  unfold writeParameterAnnotations at h
  split at h
  · cases h
  · rename_i hc
    obtain ⟨body, hb, h⟩ := Except.bind_eq_ok.mp h
    cases h
    have hn : (UInt8.ofNat parameters.length).toNat = parameters.length :=
      UInt8.toNat_ofNat_of_lt' (Nat.lt_succ_of_le (Nat.le_of_not_lt hc))
    refine (yields_u8 (UInt8.ofNat parameters.length)).bind ?_
    rw [hn]
    exact yields_each
      (fun _ _ _ hw => yields_counted (fun _ _ _ ha => Annotation.yields_read ha) hw) hb

theorem VisibleParameterAnnotations.yields_read {p : VisibleParameterAnnotations}
    (h : Payload.write p = .ok bytes) :
    (Payload.read : Reader VisibleParameterAnnotations).Yields bytes p :=
  (yields_readParameterAnnotations h).map rfl

theorem InvisibleParameterAnnotations.yields_read {p : InvisibleParameterAnnotations}
    (h : Payload.write p = .ok bytes) :
    (Payload.read : Reader InvisibleParameterAnnotations).Yields bytes p :=
  (yields_readParameterAnnotations h).map rfl

end

end Classfile
