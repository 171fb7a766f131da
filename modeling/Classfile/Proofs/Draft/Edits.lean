import Classfile.Proofs.Draft.Additions
import Classfile.Proofs.Draft.Rebuild

/-!
What editing a class does to it. An edit that fails leaves the class as it was, except that more may
have been added to its pool.
-/
namespace Classfile

open ConstantPool

variable {α β : Type} {d e : ClassDraft} {owner : FlagOwner} {δ : Type} {fault : Fault}

namespace ClassM

variable {x : PoolM α} {f : α → ClassDraft → ClassDraft}

theorem ask_eq_error {question : ClassDraft → Except Fault α} :
    ask question d = .error fault e ↔ question d = .error fault ∧ d = e := by
  rw [ask]
  cases question d <;> simp

theorem onPool_eq_error :
    onPool x d = .error fault e ↔ ∃ pool, x d.pool = .error fault pool ∧ e = { d with pool } := by
  unfold onPool
  cases hx : x d.pool with
  | ok a pool => simp [hx]
  | error e' pool =>
    simp only [EStateM.Result.error.injEq, hx]
    constructor
    · rintro ⟨rfl, rfl⟩
      exact ⟨pool, ⟨rfl, rfl⟩, rfl⟩
    · rintro ⟨_, ⟨rfl, rfl⟩, rfl⟩
      exact ⟨rfl, rfl⟩

theorem onPool_modify_eq_ok : (onPool x >>= fun a => modify (f a)) d = .ok () e ↔
    ∃ a pool, x d.pool = .ok a pool ∧ e = f a { d with pool } := by
  rw [EStateM.bind_eq_ok]
  constructor
  · rintro ⟨a, mid, ho, h⟩
    obtain ⟨pool, hx, rfl⟩ := onPool_eq_ok.mp ho
    cases h
    exact ⟨a, pool, hx, rfl⟩
  · rintro ⟨a, pool, hx, rfl⟩
    exact ⟨a, _, onPool_eq_ok.mpr ⟨pool, hx, rfl⟩, rfl⟩

theorem onPool_modify_eq_error : (onPool x >>= fun a => modify (f a)) d = .error fault e ↔
    ∃ pool, x d.pool = .error fault pool ∧ e = { d with pool } := by
  rw [EStateM.bind_eq_error, onPool_eq_error]
  constructor
  · rintro (h | ⟨a, mid, -, h⟩)
    · exact h
    · cases h
  · exact .inl

end ClassM

namespace MemberKind

open ClassM

variable (kind : MemberKind owner δ) {draft : δ} {name descriptor : String} {old : Member owner}

/-- Put another member in the place of one, and give back the old one. -/
def replace (name descriptor : String) (draft : δ) : ClassM (Member owner) := do
  let (position, old) ← ask fun d => kind.find d name descriptor
  let m ← onPool (kind.build draft)
  modify fun d => kind.put d ((kind.members d).set position m)
  return old

def remove (name descriptor : String) : ClassM (Member owner) := do
  let (position, old) ← ask fun d => kind.find d name descriptor
  modify fun d => kind.put d ((kind.members d).eraseIdx position)
  return old

theorem replace_methods : ClassM.replaceMethod = methods.replace := by
  unfold ClassM.replaceMethod replace
  rw [find_methods]
  rfl

theorem replace_fields : ClassM.replaceField = fields.replace := by
  unfold ClassM.replaceField replace
  rw [find_fields]
  rfl

theorem remove_methods : ClassM.removeMethod = methods.remove := by
  unfold ClassM.removeMethod remove
  rw [find_methods]
  rfl

theorem remove_fields : ClassM.removeField = fields.remove := by
  unfold ClassM.removeField remove
  rw [find_fields]
  rfl

variable {kind}

theorem replace_eq_ok (h : kind.replace name descriptor draft d = .ok old e) :
    ∃ p m pool, kind.find d name descriptor = .ok (p, old) ∧
      kind.build draft d.pool = .ok m pool ∧
      e = kind.put { d with pool } ((kind.members { d with pool }).set p m) := by
  obtain ⟨⟨p, found⟩, _, ha, h⟩ := EStateM.bind_eq_ok.mp h
  obtain ⟨hf, rfl⟩ := ask_eq_ok.mp ha
  obtain ⟨m, _, ho, h⟩ := EStateM.bind_eq_ok.mp h
  obtain ⟨pool, hb, rfl⟩ := onPool_eq_ok.mp ho
  cases h
  exact ⟨p, m, pool, hf, hb, rfl⟩

theorem replace_eq_error (h : kind.replace name descriptor draft d = .error fault e) :
    e = d ∨ ∃ pool, kind.build draft d.pool = .error fault pool ∧ e = { d with pool } := by
  rcases EStateM.bind_eq_error.mp h with h | ⟨⟨p, found⟩, _, hf, h⟩
  · exact .inl (ask_eq_error.mp h).2.symm
  · obtain ⟨-, rfl⟩ := ask_eq_ok.mp hf
    rcases EStateM.bind_eq_error.mp h with h | ⟨m, _, -, h⟩
    · exact .inr (onPool_eq_error.mp h)
    · cases h

theorem remove_eq_ok (h : kind.remove name descriptor d = .ok old e) :
    ∃ p, kind.find d name descriptor = .ok (p, old) ∧
      e = kind.put d ((kind.members d).eraseIdx p) := by
  obtain ⟨⟨p, found⟩, _, ha, h⟩ := EStateM.bind_eq_ok.mp h
  obtain ⟨hf, rfl⟩ := ask_eq_ok.mp ha
  cases h
  exact ⟨p, hf, rfl⟩

theorem remove_eq_error (h : kind.remove name descriptor d = .error fault e) : e = d := by
  rcases EStateM.bind_eq_error.mp h with h | ⟨⟨p, found⟩, _, -, h⟩
  · exact (ask_eq_error.mp h).2.symm
  · cases h

end MemberKind

namespace ClassDraft

/-- What a program can do to a class. -/
inductive Edit : Type 1
  | addMethod (draft : MethodDraft)
  | replaceMethod (name descriptor : String) (draft : MethodDraft)
  | removeMethod (name descriptor : String)
  | addField (draft : FieldDraft)
  | replaceField (name descriptor : String) (draft : FieldDraft)
  | removeField (name descriptor : String)
  | addInterface (name : String)
  | removeInterface (name : String)
  | addAnnotation (u : AnnotationUse)
  | addAttribute {α : Type} [Payload α] (payload : α)
  | setSourceFile (file : String)

/-- The edit as a computation, without the answer to it. -/
def Edit.perform : Edit → ClassM Unit
  | .addMethod draft => ClassM.addMethod draft
  | .replaceMethod name descriptor draft =>
    discard (ClassM.replaceMethod name descriptor draft)
  | .removeMethod name descriptor => discard (ClassM.removeMethod name descriptor)
  | .addField draft => ClassM.addField draft
  | .replaceField name descriptor draft =>
    discard (ClassM.replaceField name descriptor draft)
  | .removeField name descriptor => discard (ClassM.removeField name descriptor)
  | .addInterface name => ClassM.addInterface name
  | .removeInterface name => discard (ClassM.removeInterface name)
  | Edit.addAnnotation u => ClassM.addAnnotation u
  | @Edit.addAttribute _ _ payload => ClassM.addAttribute payload
  | .setSourceFile file => ClassM.setSourceFile file

/-- The class after an edit, successful or not. -/
def after (d : ClassDraft) (edit : Edit) : ClassDraft :=
  match edit.perform d with
  | .ok _ e => e
  | .error _ e => e

/-- What a successful edit makes of a class. -/
inductive Takes (d : ClassDraft) : Edit → ClassDraft → Prop
  | addMethod {draft : MethodDraft} {m : Method} {pool : ConstantPool}
      (h : draft.build d.pool = .ok m pool) :
      Takes d (.addMethod draft) { d with pool, methods := d.methods ++ [m] }
  | replaceMethod {name descriptor : String} {draft : MethodDraft} {p : Nat} {old m : Method}
      {pool : ConstantPool} (hf : MemberKind.methods.find d name descriptor = .ok (p, old))
      (h : draft.build d.pool = .ok m pool) :
      Takes d (.replaceMethod name descriptor draft) { d with pool, methods := d.methods.set p m }
  | removeMethod {name descriptor : String} {p : Nat} {old : Method}
      (hf : MemberKind.methods.find d name descriptor = .ok (p, old)) :
      Takes d (.removeMethod name descriptor) { d with methods := d.methods.eraseIdx p }
  | addField {draft : FieldDraft} {f : Field} {pool : ConstantPool}
      (h : draft.build d.pool = .ok f pool) :
      Takes d (.addField draft) { d with pool, fields := d.fields ++ [f] }
  | replaceField {name descriptor : String} {draft : FieldDraft} {p : Nat} {old f : Field}
      {pool : ConstantPool} (hf : MemberKind.fields.find d name descriptor = .ok (p, old))
      (h : draft.build d.pool = .ok f pool) :
      Takes d (.replaceField name descriptor draft) { d with pool, fields := d.fields.set p f }
  | removeField {name descriptor : String} {p : Nat} {old : Field}
      (hf : MemberKind.fields.find d name descriptor = .ok (p, old)) :
      Takes d (.removeField name descriptor) { d with fields := d.fields.eraseIdx p }
  | addInterface {name : String} {i : ConstantIndex} {pool : ConstantPool}
      {interfaces : List ConstantIndex} (h : PoolM.addTypeName name d.pool = .ok i pool) :
      Takes d (.addInterface name) { d with pool, interfaces }
  | removeInterface {name : String} {interfaces : List ConstantIndex} :
      Takes d (.removeInterface name) { d with interfaces }
  | addAnnotation {u : AnnotationUse} :
      Takes d ( Edit.addAnnotation u) { d with annotations := d.annotations ++ [u] }
  | addAttribute {α : Type} [Payload α] {payload : α} {a : Attribute} {pool : ConstantPool}
      (h : PoolM.addAttribute payload d.pool = .ok a pool) :
      Takes d (.addAttribute payload) { d with pool, attributes := d.attributes ++ [a] }
  | setSourceFile {file : String} {i : ConstantIndex} {a : Attribute} {mid pool : ConstantPool}
      {attributes : List Attribute} (hi : PoolM.addText file d.pool = .ok i mid)
      (h : PoolM.addAttribute (SourceFile.mk i) mid = .ok a pool) :
      Takes d (.setSourceFile file) { d with pool, attributes }

theorem takes_of_perform {edit : Edit} (h : edit.perform d = .ok () e) : d.Takes edit e := by
  cases edit with
  | addMethod draft =>
    obtain ⟨m, pool, hb, rfl⟩ := ClassM.onPool_modify_eq_ok.mp h
    exact .addMethod hb
  | replaceMethod name descriptor draft =>
    obtain ⟨old, h⟩ := EStateM.discard_eq_ok.mp h
    rw [MemberKind.replace_methods] at h
    obtain ⟨p, m, pool, hf, hb, rfl⟩ := MemberKind.replace_eq_ok h
    exact .replaceMethod hf hb
  | removeMethod name descriptor =>
    obtain ⟨old, h⟩ := EStateM.discard_eq_ok.mp h
    rw [MemberKind.remove_methods] at h
    obtain ⟨p, hf, rfl⟩ := MemberKind.remove_eq_ok h
    exact .removeMethod hf
  | addField draft =>
    obtain ⟨f, pool, hb, rfl⟩ := ClassM.onPool_modify_eq_ok.mp h
    exact .addField hb
  | replaceField name descriptor draft =>
    obtain ⟨old, h⟩ := EStateM.discard_eq_ok.mp h
    rw [MemberKind.replace_fields] at h
    obtain ⟨p, f, pool, hf, hb, rfl⟩ := MemberKind.replace_eq_ok h
    exact .replaceField hf hb
  | removeField name descriptor =>
    obtain ⟨old, h⟩ := EStateM.discard_eq_ok.mp h
    rw [MemberKind.remove_fields] at h
    obtain ⟨p, hf, rfl⟩ := MemberKind.remove_eq_ok h
    exact .removeField hf
  | addInterface name =>
    obtain ⟨i, pool, hi, rfl⟩ := ClassM.onPool_modify_eq_ok.mp h
    split
    · exact .addInterface hi
    · exact .addInterface hi
  | removeInterface name =>
    obtain ⟨found, h⟩ := EStateM.discard_eq_ok.mp h
    cases h
    exact .removeInterface
  | addAnnotation u =>
    cases h
    exact Takes.addAnnotation
  | addAttribute payload =>
    obtain ⟨a, pool, ha, rfl⟩ := ClassM.onPool_modify_eq_ok.mp h
    exact .addAttribute ha
  | setSourceFile file =>
    obtain ⟨a, pool, ha, rfl⟩ := ClassM.onPool_modify_eq_ok.mp h
    obtain ⟨i, mid, hi, ha⟩ := EStateM.bind_eq_ok.mp ha
    exact .setSourceFile hi ha

/-- The class is the same, but more may have been added to its pool. -/
def Grown (d e : ClassDraft) : Prop :=
  ∃ pool, (d.pool.Regular → pool.Regular ∧ d.pool.Grows pool) ∧ e = { d with pool }

theorem grown_self (d : ClassDraft) : d.Grown d := ⟨d.pool, fun hp => ⟨hp, .refl d.pool⟩, rfl⟩

theorem grown_of_error {x : PoolM α} (hx : PoolM.Enlarges x)
    (h : ∃ pool, x d.pool = .error fault pool ∧ e = { d with pool }) : d.Grown e := by
  obtain ⟨pool, h, rfl⟩ := h
  exact ⟨pool, hx.of_error h, rfl⟩

section

open PoolM

theorem enlarges_method (draft : MethodDraft) : Enlarges draft.build :=
  enlarges_of_maintains fun _ hadd => draft.maintains_build hadd

theorem enlarges_field (draft : FieldDraft) : Enlarges draft.build :=
  enlarges_of_maintains fun _ hadd => draft.maintains_build hadd

theorem enlarges_interface (name : String) : Enlarges (addTypeName name) :=
  enlarges_of_maintains fun _ hadd => maintains_addTypeName hadd name

theorem enlarges_attribute [Payload α] (payload : α) : Enlarges (addAttribute payload) :=
  enlarges_of_maintains fun _ hadd => maintains_addAttribute hadd payload

theorem enlarges_sourceFile (file : String) :
    Enlarges (do addAttribute (SourceFile.mk (← addText file))) :=
  enlarges_of_maintains fun _ hadd => (hadd _).bind fun _ => maintains_addAttribute hadd _

end

theorem grown_of_perform {edit : Edit} (h : edit.perform d = .error fault e) : d.Grown e := by
  have hsame : e = d → d.Grown e := fun h => h ▸ grown_self d
  cases edit with
  | addMethod draft =>
    exact grown_of_error (enlarges_method draft) (ClassM.onPool_modify_eq_error.mp h)
  | replaceMethod name descriptor draft =>
    rw [Edit.perform, EStateM.discard_eq_error, MemberKind.replace_methods] at h
    exact (MemberKind.replace_eq_error h).elim hsame
      (grown_of_error (enlarges_method draft))
  | removeMethod name descriptor =>
    rw [Edit.perform, EStateM.discard_eq_error, MemberKind.remove_methods] at h
    exact hsame (MemberKind.remove_eq_error h)
  | addField draft =>
    exact grown_of_error (enlarges_field draft) (ClassM.onPool_modify_eq_error.mp h)
  | replaceField name descriptor draft =>
    rw [Edit.perform, EStateM.discard_eq_error, MemberKind.replace_fields] at h
    exact (MemberKind.replace_eq_error h).elim hsame
      (grown_of_error (enlarges_field draft))
  | removeField name descriptor =>
    rw [Edit.perform, EStateM.discard_eq_error, MemberKind.remove_fields] at h
    exact hsame (MemberKind.remove_eq_error h)
  | addInterface name =>
    exact grown_of_error (enlarges_interface name) (ClassM.onPool_modify_eq_error.mp h)
  | removeInterface name => cases h
  | addAnnotation u => cases h
  | addAttribute payload =>
    exact grown_of_error (enlarges_attribute payload) (ClassM.onPool_modify_eq_error.mp h)
  | setSourceFile file =>
    exact grown_of_error (enlarges_sourceFile file) (ClassM.onPool_modify_eq_error.mp h)

end ClassDraft

end Classfile
