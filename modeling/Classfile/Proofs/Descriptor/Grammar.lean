import Classfile.Proofs.Descriptor.Parser
import Mathlib.Data.List.TakeWhile

/-!
The grammar of descriptors, and that the readers accept what it derives and nothing else. A type
whose class names can stand in a descriptor is read back from its description.
-/
namespace Classfile

variable {chars rest : List Char} {text : String}

/-- The characters that the grammar derives for the type of a field. -/
inductive FieldText : List Char → Prop
  | base {c : Char} (letter : c ∈ ['B', 'C', 'D', 'F', 'I', 'J', 'S', 'Z']) : FieldText [c]
  | object {name : List Char} (filled : name ≠ []) (plain : ';' ∉ name) :
      FieldText ('L' :: name ++ [';'])
  | array {element : List Char} (type : FieldText element) : FieldText ('[' :: element)

/-- Types of fields, one behind the other. -/
inductive FieldTexts : List Char → Prop
  | nil : FieldTexts []
  | cons {first more : List Char} (head : FieldText first) (tail : FieldTexts more) :
      FieldTexts (first ++ more)

/-- The characters that the grammar derives for a method. -/
inductive MethodText : List Char → Prop
  | void {parameters : List Char} (types : FieldTexts parameters) :
      MethodText ('(' :: parameters ++ [')', 'V'])
  | value {parameters returns : List Char} (types : FieldTexts parameters)
      (type : FieldText returns) : MethodText ('(' :: parameters ++ ')' :: returns)

theorem readWhole_eq_ok_iff {α : Type}
    {read : List Char → Except DescriptorError (α × List Char)} {a : α} :
    readWhole read text = .ok a ↔ read text.toList = .ok (a, []) :=
  ⟨readWhole_eq_ok, fun h => by simp [readWhole, h]⟩

theorem ofList_eq_iff : String.ofList chars = text ↔ chars = text.toList := by
  rw [← String.ofList_inj, String.ofList_toList]

namespace BaseType

theorem exists_letter_iff {c : Char} :
    (∃ type : BaseType, type.letter = c) ↔ c ∈ ['B', 'C', 'D', 'F', 'I', 'J', 'S', 'Z'] := by
  constructor
  · rintro ⟨type, rfl⟩
    cases type <;> decide
  · intro h
    simp only [List.mem_cons, List.not_mem_nil, or_false] at h
    obtain rfl | rfl | rfl | rfl | rfl | rfl | rfl | rfl := h
    exacts [⟨byte, rfl⟩, ⟨char, rfl⟩, ⟨double, rfl⟩, ⟨float, rfl⟩, ⟨int, rfl⟩, ⟨long, rfl⟩,
      ⟨short, rfl⟩, ⟨boolean, rfl⟩]

end BaseType

namespace FieldType

/-- The class names in the type can stand between the letter and the semicolon. -/
def WellNamed : FieldType → Prop
  | base _ => True
  | object name => name.toList ≠ [] ∧ ';' ∉ name.toList
  | array element => element.WellNamed

theorem fieldText_iff :
    FieldText chars ↔ ∃ t : FieldType, t.WellNamed ∧ t.describeChars = chars := by
  constructor
  · intro h
    induction h with
    | base letter =>
      obtain ⟨type, rfl⟩ := BaseType.exists_letter_iff.mpr letter
      exact ⟨base type, trivial, rfl⟩
    | @object name filled plain =>
      exact ⟨object (String.ofList name), by simpa [WellNamed] using ⟨filled, plain⟩,
        by simp [describeChars]⟩
    | array type ih =>
      obtain ⟨t, hw, rfl⟩ := ih
      exact ⟨array t, hw, rfl⟩
  · rintro ⟨t, hw, rfl⟩
    induction t with
    | base type => exact .base (BaseType.exists_letter_iff.mp ⟨type, rfl⟩)
    | object name => exact .object hw.1 hw.2
    | array element ih => exact .array (ih hw)

/-- A description starts with none of the characters that end a list of parameters or stand for
no result. -/
theorem exists_describeChars_eq_cons (t : FieldType) :
    ∃ c more, t.describeChars = c :: more ∧ c ≠ ')' ∧ c ≠ 'V' := by
  cases t with
  | base type => exact ⟨type.letter, [], rfl, by cases type <;> decide, by cases type <;> decide⟩
  | object name => exact ⟨'L', _, rfl, by decide, by decide⟩
  | array element => exact ⟨'[', _, rfl, by decide, by decide⟩

theorem readClassName_toList {name : String} (hf : name.toList ≠ []) (hp : ';' ∉ name.toList) :
    readClassName (name.toList ++ ';' :: rest) = .ok (name, rest) := by
  have hn : ∀ c ∈ name.toList, decide (c ≠ ';') = true := fun c hc => by
    simpa using fun he : c = ';' => hp (he ▸ hc)
  have ht : (name.toList ++ ';' :: rest).takeWhile (· ≠ ';') = name.toList := by
    rw [List.takeWhile_append_of_pos hn]
    simp
  have hd : (name.toList ++ ';' :: rest).dropWhile (· ≠ ';') = ';' :: rest := by
    rw [List.dropWhile_append_of_pos hn]
    simp
  rw [readClassName, List.span_eq_takeWhile_dropWhile, ht, hd]
  obtain ⟨c, more, hc⟩ := List.exists_cons_of_ne_nil hf
  rw [hc]
  dsimp only
  rw [← hc, String.ofList_toList]

theorem plain_of_readClassName {name : String} (h : readClassName chars = .ok (name, rest)) :
    name.toList ≠ [] ∧ ';' ∉ name.toList := by
  rw [readClassName, List.span_eq_takeWhile_dropWhile] at h
  dsimp only at h
  split at h
  · cases h
  · cases h
  · rename_i hn
    cases h
    rw [String.toList_ofList]
    exact ⟨hn, fun hm => by simpa using List.mem_takeWhile_imp hm⟩

theorem read_describeChars {t : FieldType} (h : t.WellNamed) :
    read (t.describeChars ++ rest) = .ok (t, rest) := by
  induction t with
  | base type => simp [describeChars, read, BaseType.ofLetter?_letter]
  | object name =>
    have hl : BaseType.ofLetter? 'L' = none := rfl
    simp only [describeChars, List.cons_append, List.append_assoc, List.nil_append, read, hl,
      readClassName_toList h.1 h.2]
    rfl
  | array element ih =>
    have hl : BaseType.ofLetter? '[' = none := rfl
    simp only [describeChars, List.cons_append, read, hl, ih h]
    rfl

theorem wellNamed_of_read {t : FieldType} (h : read chars = .ok (t, rest)) : t.WellNamed := by
  induction chars generalizing t with
  | nil => cases h
  | cons c chars ih =>
    rw [read] at h
    split at h
    · cases h
      trivial
    · split at h
      · obtain ⟨⟨name, tail⟩, hn, h⟩ := Except.bind_eq_ok.mp h
        cases h
        exact plain_of_readClassName hn
      · split at h
        · obtain ⟨⟨element, tail⟩, he, h⟩ := Except.bind_eq_ok.mp h
          cases h
          exact ih (t := element) he
        · cases h

theorem read_eq_ok {t : FieldType} :
    read chars = .ok (t, rest) ↔ t.WellNamed ∧ t.describeChars ++ rest = chars :=
  ⟨fun h => ⟨wellNamed_of_read h, (describeChars_of_read h).symm⟩,
    fun ⟨hw, hc⟩ => hc ▸ read_describeChars hw⟩

theorem parse_eq_ok {t : FieldType} : parse text = .ok t ↔ t.WellNamed ∧ t.describe = text := by
  rw [parse, readWhole_eq_ok_iff, read_eq_ok, List.append_nil, describe, ofList_eq_iff]

/-- The grammar derives what describes a list of types, one description behind the other. -/
theorem fieldTexts_iff : FieldTexts chars ↔
    ∃ types : List FieldType, (∀ t ∈ types, t.WellNamed) ∧ types.flatMap describeChars = chars := by
  constructor
  · intro h
    induction h with
    | nil => exact ⟨[], by simp, rfl⟩
    | cons head tail ih =>
      obtain ⟨t, ht, rfl⟩ := fieldText_iff.mp head
      obtain ⟨types, hts, rfl⟩ := ih
      exact ⟨t :: types, by simpa using ⟨ht, hts⟩, by simp⟩
  · rintro ⟨types, hts, rfl⟩
    induction types with
    | nil => exact .nil
    | cons t types ih =>
      rw [List.forall_mem_cons] at hts
      exact .cons (fieldText_iff.mpr ⟨t, hts.1, rfl⟩) (ih hts.2)

end FieldType

namespace MethodDescriptor

/-- The class names in the parameters and in the result can stand in a descriptor. -/
def WellNamed (d : MethodDescriptor) : Prop :=
  (∀ t ∈ d.parameters, t.WellNamed) ∧ ∀ t ∈ d.returns, t.WellNamed

theorem methodText_iff :
    MethodText chars ↔ ∃ d : MethodDescriptor, d.WellNamed ∧ d.describeChars = chars := by
  constructor
  · rintro (types | ⟨types, type⟩)
    · obtain ⟨parameters, hp, rfl⟩ := FieldType.fieldTexts_iff.mp types
      exact ⟨⟨parameters, none⟩, ⟨hp, by simp⟩, rfl⟩
    · obtain ⟨parameters, hp, rfl⟩ := FieldType.fieldTexts_iff.mp types
      obtain ⟨t, ht, rfl⟩ := FieldType.fieldText_iff.mp type
      exact ⟨⟨parameters, some t⟩, ⟨hp, by simpa using ht⟩, rfl⟩
  · rintro ⟨⟨parameters, returns⟩, ⟨hp, hr⟩, rfl⟩
    have ht := FieldType.fieldTexts_iff.mpr ⟨parameters, hp, rfl⟩
    cases returns with
    | none => exact .void ht
    | some t => exact .value ht (FieldType.fieldText_iff.mpr ⟨t, hr t rfl, rfl⟩)

/-- Reading stops in front of the closing parenthesis, as no description starts with one. -/
theorem readParametersOnto_describeChars {done types : List FieldType} {fuel : Nat}
    (ht : ∀ t ∈ types, t.WellNamed) (hl : types.length < fuel) :
    readParametersOnto done fuel (types.flatMap FieldType.describeChars ++ ')' :: rest)
      = .ok (done.reverse ++ types, ')' :: rest) := by
  induction types generalizing done fuel with
  | nil =>
    obtain ⟨fuel, rfl⟩ := Nat.exists_eq_add_of_lt hl
    simp [readParametersOnto]
  | cons t types ih =>
    obtain ⟨fuel, rfl⟩ : ∃ n, fuel = n + 1 := ⟨fuel - 1, by omega⟩
    rw [List.forall_mem_cons] at ht
    rw [List.length_cons] at hl
    have hr : FieldType.read (t.describeChars ++
        (types.flatMap FieldType.describeChars ++ ')' :: rest)) = .ok (t, _) :=
      FieldType.read_describeChars ht.1
    obtain ⟨c, more, hc, hn, -⟩ := t.exists_describeChars_eq_cons
    rw [List.flatMap_cons, List.append_assoc]
    rw [hc, List.cons_append] at hr ⊢
    rw [readParametersOnto, if_neg hn, hr]
    dsimp only
    rw [ih ht.2 (by omega)]
    simp

theorem length_le_flatMap_describeChars (types : List FieldType) :
    types.length ≤ (types.flatMap FieldType.describeChars).length := by
  induction types with
  | nil => simp
  | cons t types ih =>
    obtain ⟨c, more, hc, -⟩ := t.exists_describeChars_eq_cons
    simp only [List.flatMap_cons, List.length_append, List.length_cons, hc]
    omega

theorem readReturns_describeChars {t : FieldType} (h : t.WellNamed) :
    readReturns (t.describeChars ++ rest) = .ok (some t, rest) := by
  have hr : FieldType.read (t.describeChars ++ rest) = .ok (t, rest) :=
    FieldType.read_describeChars h
  obtain ⟨c, more, hc, -, hn⟩ := t.exists_describeChars_eq_cons
  rw [hc, List.cons_append] at hr ⊢
  rw [readReturns, hr]
  · rfl
  · simpa using hn

theorem wellNamed_of_readParametersOnto {done types : List FieldType} {fuel : Nat}
    (hd : ∀ t ∈ done, t.WellNamed) (h : readParametersOnto done fuel chars = .ok (types, rest)) :
    ∀ t ∈ types, t.WellNamed := by
  have hr : ∀ t ∈ done.reverse, t.WellNamed := by simpa using hd
  induction fuel generalizing done chars with
  | zero =>
    cases h
    exact hr
  | succ fuel ih =>
    unfold readParametersOnto at h
    split at h
    · cases h
      exact hr
    · split at h
      · cases h
        exact hr
      · split at h
        · rename_i ht
          have hd' := List.forall_mem_cons.mpr ⟨FieldType.wellNamed_of_read ht, hd⟩
          exact ih hd' h (by simpa [or_imp, forall_and, and_comm] using hd')
        · cases h

theorem wellNamed_of_readReturns {returns : Option FieldType}
    (h : readReturns chars = .ok (returns, rest)) : ∀ t ∈ returns, t.WellNamed := by
  unfold readReturns at h
  split at h
  · cases h
    simp
  · obtain ⟨⟨t, tail⟩, hr, h⟩ := Except.bind_eq_ok.mp h
    cases h
    simpa using FieldType.wellNamed_of_read hr

theorem wellNamed_of_read {d : MethodDescriptor} (h : read chars = .ok (d, rest)) :
    d.WellNamed := by
  unfold read at h
  split at h
  · obtain ⟨⟨parameters, tail⟩, hp, h⟩ := Except.bind_eq_ok.mp h
    dsimp only at h
    split at h
    · obtain ⟨⟨returns, tail⟩, hr, h⟩ := Except.bind_eq_ok.mp h
      cases h
      exact ⟨wellNamed_of_readParametersOnto (by simp) hp, wellNamed_of_readReturns hr⟩
    · cases h
  · cases h

theorem read_describeChars {d : MethodDescriptor} (h : d.WellNamed) :
    read d.describeChars = .ok (d, []) := by
  obtain ⟨parameters, returns⟩ := d
  have hl := length_le_flatMap_describeChars parameters
  rw [describeChars, List.cons_append, read, readParametersOnto_describeChars h.1
    (by simp only [List.length_append, List.length_cons]; omega)]
  cases returns with
  | none => rfl
  | some t =>
    have hr : readReturns (t.describeChars ++ []) = .ok (some t, []) :=
      readReturns_describeChars (h.2 t rfl)
    rw [List.append_nil] at hr
    simp [Except.ok_bind, hr]

theorem parse_eq_ok {d : MethodDescriptor} :
    parse text = .ok d ↔ d.WellNamed ∧ d.describe = text := by
  constructor
  · exact fun h => ⟨wellNamed_of_read (readWhole_eq_ok h), describe_parse h⟩
  · rintro ⟨hw, rfl⟩
    rw [parse, readWhole_eq_ok_iff, describe, String.toList_ofList, read_describeChars hw]

end MethodDescriptor

/-- What the readers accept is what the grammar derives, and reading and describing undo each
other wherever the class names can stand in a descriptor. -/
theorem descriptor_grammar (text : String) :
    ((∃ t, FieldType.parse text = .ok t) ↔ FieldText text.toList) ∧
    ((∃ d, MethodDescriptor.parse text = .ok d) ↔ MethodText text.toList) ∧
    (∀ t, FieldType.parse text = .ok t ↔ t.WellNamed ∧ t.describe = text) ∧
    ∀ d, MethodDescriptor.parse text = .ok d ↔ d.WellNamed ∧ d.describe = text := by
  refine ⟨?_, ?_, fun t => FieldType.parse_eq_ok, fun d => MethodDescriptor.parse_eq_ok⟩
  · rw [FieldType.fieldText_iff]
    refine exists_congr fun t => ?_
    rw [FieldType.parse_eq_ok, FieldType.describe, ofList_eq_iff]
  · rw [MethodDescriptor.methodText_iff]
    refine exists_congr fun d => ?_
    rw [MethodDescriptor.parse_eq_ok, MethodDescriptor.describe, ofList_eq_iff]

end Classfile
