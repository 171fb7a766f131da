import Classfile.Descriptor.Parser
import Classfile.Proofs.Except
import Mathlib.Data.List.TakeDrop

/-!
A descriptor that can be read is the description of what it is read as. So describing a type that
was read, and reading it once more, changes nothing.
-/
namespace Classfile

variable {chars rest : List Char} {text : String}

theorem readWhole_eq_ok {α : Type} {read : List Char → Except DescriptorError (α × List Char)}
    {a : α} (h : readWhole read text = .ok a) : read text.toList = .ok (a, []) := by
  unfold readWhole at h
  split at h
  · cases h
  · cases h
    assumption
  · cases h

theorem BaseType.ofLetter?_letter (type : BaseType) : ofLetter? type.letter = some type := by
  cases type <;> decide

theorem BaseType.letter_of_ofLetter? {c : Char} {type : BaseType} (h : ofLetter? c = some type) :
    type.letter = c := by
  simpa using List.find?_some h

namespace FieldType

theorem readClassName_eq {name : String} (h : readClassName chars = .ok (name, rest)) :
    chars = name.toList ++ ';' :: rest := by
  have hs : chars.takeWhile (· ≠ ';') ++ chars.dropWhile (· ≠ ';') = chars :=
    List.takeWhile_append_dropWhile
  rw [readClassName, List.span_eq_takeWhile_dropWhile] at h
  dsimp only at h
  split at h
  · cases h
  · cases h
  · rename_i c tail hd _
    cases h
    have hc : c = ';' := by
      have hn := List.head_dropWhile_not (fun c => decide (c ≠ ';')) (by rw [hd]; simp)
      simp only [hd, List.head_cons] at hn
      simpa using hn
    rw [String.toList_ofList, ← hc, ← hd, hc, hs]

theorem describeChars_of_read {t : FieldType} (h : read chars = .ok (t, rest)) :
    chars = t.describeChars ++ rest := by
  induction chars generalizing t with
  | nil => cases h
  | cons c chars ih =>
    rw [read] at h
    split at h
    · rename_i type ht
      cases h
      rw [← BaseType.letter_of_ofLetter? ht]
      rfl
    · split at h
      · rename_i hc
        obtain ⟨⟨name, tail⟩, hn, h⟩ := Except.bind_eq_ok.mp h
        cases h
        rw [readClassName_eq hn, hc, describeChars]
        simp
      · split at h
        · rename_i hc
          obtain ⟨⟨element, tail⟩, he, h⟩ := Except.bind_eq_ok.mp h
          cases h
          rw [ih he, hc]
          rfl
        · cases h

theorem describe_parse {t : FieldType} (h : parse text = .ok t) : t.describe = text := by
  have hc := describeChars_of_read (readWhole_eq_ok h)
  rw [List.append_nil] at hc
  rw [describe, ← hc, String.ofList_toList]

end FieldType

namespace MethodDescriptor

theorem describeChars_of_readParametersOnto {done types : List FieldType} {fuel : Nat}
    (h : readParametersOnto done fuel chars = .ok (types, rest)) :
    ∃ more, types = done.reverse ++ more ∧
      chars = more.flatMap FieldType.describeChars ++ rest := by
  induction fuel generalizing done chars with
  | zero =>
    cases h
    exact ⟨[], by simp, rfl⟩
  | succ fuel ih =>
    unfold readParametersOnto at h
    split at h
    · cases h
      exact ⟨[], by simp, rfl⟩
    · split at h
      · cases h
        exact ⟨[], by simp, rfl⟩
      · split at h
        · rename_i type tail hr
          obtain ⟨more, rfl, rfl⟩ := ih h
          refine ⟨type :: more, by simp, ?_⟩
          rw [FieldType.describeChars_of_read hr, List.flatMap_cons, List.append_assoc]
        · cases h

theorem describeChars_of_readReturns {returns : Option FieldType} :
    readReturns chars = .ok (returns, rest) → chars = (match returns with
      | none => ['V']
      | some type => type.describeChars) ++ rest := by
  intro h
  unfold readReturns at h
  split at h
  · cases h
    rfl
  · obtain ⟨⟨type, tail⟩, hr, h⟩ := Except.bind_eq_ok.mp h
    cases h
    exact FieldType.describeChars_of_read hr

theorem describe_parse {d : MethodDescriptor} (h : parse text = .ok d) : d.describe = text := by
  have hr := readWhole_eq_ok h
  have hc : text.toList = d.describeChars := by
    unfold read at hr
    split at hr
    · rename_i chars ho
      obtain ⟨⟨parameters, tail⟩, hp, hr⟩ := Except.bind_eq_ok.mp hr
      obtain ⟨more, rfl, hm⟩ := describeChars_of_readParametersOnto hp
      dsimp only at hr
      split at hr
      · obtain ⟨⟨returns, tail⟩, hs, hr⟩ := Except.bind_eq_ok.mp hr
        cases hr
        rw [ho, hm, describeChars_of_readReturns hs, describeChars]
        cases returns <;> simp
      · cases hr
    · cases hr
  rw [describe, ← hc, String.ofList_toList]

end MethodDescriptor

end Classfile
