import Classfile.Proofs.Pool.Growth

/-!
What the questions to a pool answer, in terms of the constants that lie at its indices. So they
answer the same when the pool has grown.
-/
namespace Classfile.ConstantPool

variable {pool : ConstantPool} {i : ConstantIndex} {text name descriptor owner : String}

theorem typeName_eq_ok : pool.typeName i = .ok name ↔
    ∃ j, pool.get? i = some (.typeName j) ∧ pool.get? j = some (.utf8 name) := by
  rw [typeName, Except.bind_eq_ok]
  constructor
  · rintro ⟨c, hc, h⟩
    cases c with
    | typeName j => exact ⟨j, get_eq_ok.mp hc, text_eq_ok.mp h⟩
    | _ => cases h
  · rintro ⟨j, hc, h⟩
    exact ⟨_, get_eq_ok.mpr hc, text_eq_ok.mpr h⟩

theorem string_eq_ok : pool.string i = .ok text ↔
    ∃ j, pool.get? i = some (.string j) ∧ pool.get? j = some (.utf8 text) := by
  rw [ConstantPool.string, Except.bind_eq_ok]
  constructor
  · rintro ⟨c, hc, h⟩
    cases c with
    | string j => exact ⟨j, get_eq_ok.mp hc, text_eq_ok.mp h⟩
    | _ => cases h
  · rintro ⟨j, hc, h⟩
    exact ⟨_, get_eq_ok.mpr hc, text_eq_ok.mpr h⟩

theorem signature_eq_ok : pool.signature i = .ok (name, descriptor) ↔
    ∃ j k, pool.get? i = some (.nameAndType j k) ∧ pool.get? j = some (.utf8 name) ∧
      pool.get? k = some (.utf8 descriptor) := by
  rw [signature, Except.bind_eq_ok]
  constructor
  · rintro ⟨c, hc, h⟩
    cases c with
    | nameAndType j k =>
      obtain ⟨_, hj, h⟩ := Except.bind_eq_ok.mp h
      obtain ⟨_, hk, h⟩ := Except.bind_eq_ok.mp h
      cases h
      exact ⟨j, k, get_eq_ok.mp hc, text_eq_ok.mp hj, text_eq_ok.mp hk⟩
    | _ => cases h
  · rintro ⟨j, k, hc, hj, hk⟩
    refine ⟨_, get_eq_ok.mpr hc, ?_⟩
    exact Except.bind_eq_ok.mpr ⟨_, text_eq_ok.mpr hj, Except.bind_eq_ok.mpr
      ⟨_, text_eq_ok.mpr hk, rfl⟩⟩

/-- The constant is a field or method with this owner and this signature. -/
def Joins (c : Constant) (j k : ConstantIndex) : Prop :=
  c = .fieldRef j k ∨ ∃ ofInterface, c = .methodRef ofInterface j k

theorem member_eq_ok : pool.member i = .ok (owner, name, descriptor) ↔
    ∃ c j k, pool.get? i = some c ∧ Joins c j k ∧ pool.typeName j = .ok owner ∧
      pool.signature k = .ok (name, descriptor) := by
  have hparts : ∀ {j k}, (do
      let texts ← pool.signature k
      return (← pool.typeName j, texts.1, texts.2)) = Except.ok (owner, name, descriptor) ↔
        pool.typeName j = .ok owner ∧ pool.signature k = .ok (name, descriptor) := by
    intro j k
    cases hs : pool.signature k with
    | error e => simp
    | ok texts => cases hn : pool.typeName j <;> simp [Prod.ext_iff]
  rw [member, Except.bind_eq_ok]
  constructor
  · rintro ⟨c, hc, h⟩
    cases c with
    | fieldRef j k => exact ⟨_, j, k, get_eq_ok.mp hc, .inl rfl, hparts.mp h⟩
    | methodRef ofInterface j k =>
      exact ⟨_, j, k, get_eq_ok.mp hc, .inr ⟨ofInterface, rfl⟩, hparts.mp h⟩
    | _ => cases h
  · rintro ⟨c, j, k, hc, rfl | ⟨ofInterface, rfl⟩, h⟩
    · exact ⟨_, get_eq_ok.mpr hc, hparts.mpr h⟩
    · exact ⟨_, get_eq_ok.mpr hc, hparts.mpr h⟩

namespace Grows

variable {pool' : ConstantPool} (hg : pool.Grows pool')
include hg

theorem typeName (h : pool.typeName i = .ok name) : pool'.typeName i = .ok name := by
  obtain ⟨j, hi, hj⟩ := typeName_eq_ok.mp h
  exact typeName_eq_ok.mpr ⟨j, hg hi, hg hj⟩

theorem string (h : pool.string i = .ok text) : pool'.string i = .ok text := by
  obtain ⟨j, hi, hj⟩ := string_eq_ok.mp h
  exact string_eq_ok.mpr ⟨j, hg hi, hg hj⟩

theorem signature (h : pool.signature i = .ok (name, descriptor)) :
    pool'.signature i = .ok (name, descriptor) := by
  obtain ⟨j, k, hi, hj, hk⟩ := signature_eq_ok.mp h
  exact signature_eq_ok.mpr ⟨j, k, hg hi, hg hj, hg hk⟩

end Grows

end Classfile.ConstantPool
