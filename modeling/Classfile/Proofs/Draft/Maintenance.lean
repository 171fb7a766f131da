import Classfile.Proofs.Draft.Edits
import Classfile.Proofs.Draft.NormalForm

/-!
What editing a class does to its pool. All that an edit does there is to add constants, one by one,
so what every addition keeps every edit keeps, also one that fails halfway.
-/
namespace Classfile

open ConstantPool
open EStateM (maintains_pure)

variable {α β : Type} {d : ClassDraft} {name : String} {P : ConstantPool → Prop}

namespace ClassM

/-- What holds of the pool of a class holds of the pool that the computation leaves. -/
abbrev Maintains (P : ConstantPool → Prop) (x : ClassM α) : Prop :=
  EStateM.Maintains (fun d => P d.pool) x

theorem maintains_ask {question : ClassDraft → Except Fault α} : Maintains P (ask question) := by
  intro d h
  rw [EStateM.left, ask]
  cases question d with
  | ok a => exact h
  | error e => exact h

theorem maintains_modify {f : ClassDraft → ClassDraft} (hf : ∀ d, (f d).pool = d.pool) :
    Maintains P (modify f) := by
  intro d h
  change P (f d).pool
  rwa [hf]

theorem maintains_onPool {x : PoolM α} (hx : EStateM.Maintains P x) : Maintains P (onPool x) := by
  intro d h
  rw [EStateM.left, onPool]
  cases hpool : x d.pool with
  | ok a pool => exact hx.of_ok hpool h
  | error e pool => exact hx.of_error hpool h

end ClassM

namespace MemberKind.Lawful

open ClassM

variable {owner : FlagOwner} {δ : Type} {kind : MemberKind owner δ} {descriptor : String}

theorem maintains_replace (hk : kind.Lawful) {draft : δ}
    (hbuild : EStateM.Maintains P (kind.build draft)) :
    Maintains P (kind.replace name descriptor draft) := by
  refine maintains_ask.bind fun ⟨position, old⟩ => (maintains_onPool hbuild).bind fun m => ?_
  exact (maintains_modify fun d => hk.pool_put d _).bind fun _ => maintains_pure _

theorem maintains_remove (hk : kind.Lawful) : Maintains P (kind.remove name descriptor) := by
  refine maintains_ask.bind fun ⟨position, old⟩ => ?_
  exact (maintains_modify fun d => hk.pool_put d _).bind fun _ => maintains_pure _

end MemberKind.Lawful

namespace ClassM

variable (hadd : ∀ c, EStateM.Maintains P (PoolM.add c))
include hadd

theorem maintains_addInterface (name : String) : Maintains P (addInterface name) := by
  refine (maintains_onPool (PoolM.maintains_addTypeName hadd name)).bind fun i =>
    maintains_modify fun d => ?_
  split <;> rfl

theorem maintains_addInterfaces (names : List String) :
    Maintains P (names.forM addInterface : ClassM Unit) := by
  induction names with
  | nil => exact maintains_pure _
  | cons name names ih => exact (maintains_addInterface hadd name).bind fun _ => ih

/-- What every addition of a constant keeps, every edit keeps. -/
theorem maintains_perform (edit : ClassDraft.Edit) : Maintains P edit.perform := by
  cases edit with
  | addMethod draft =>
    exact (maintains_onPool (draft.maintains_build hadd)).bind fun _ =>
      maintains_modify fun _ => rfl
  | addField draft =>
    exact (maintains_onPool (draft.maintains_build hadd)).bind fun _ =>
      maintains_modify fun _ => rfl
  | replaceMethod name descriptor draft =>
    rw [ClassDraft.Edit.perform, MemberKind.replace_methods]
    exact (MemberKind.lawful_methods.maintains_replace (draft.maintains_build hadd)).discard
  | replaceField name descriptor draft =>
    rw [ClassDraft.Edit.perform, MemberKind.replace_fields]
    exact (MemberKind.lawful_fields.maintains_replace (draft.maintains_build hadd)).discard
  | removeMethod name descriptor =>
    rw [ClassDraft.Edit.perform, MemberKind.remove_methods]
    exact MemberKind.lawful_methods.maintains_remove.discard
  | removeField name descriptor =>
    rw [ClassDraft.Edit.perform, MemberKind.remove_fields]
    exact MemberKind.lawful_fields.maintains_remove.discard
  | addInterface name => exact maintains_addInterface hadd name
  | removeInterface name => exact fun _ h => h
  | addAnnotation u => exact maintains_modify fun _ => rfl
  | addAttribute payload =>
    exact (maintains_onPool (PoolM.maintains_addAttribute hadd payload)).bind fun _ =>
      maintains_modify fun _ => rfl
  | setSourceFile file =>
    refine (maintains_onPool ((hadd _).bind fun _ => PoolM.maintains_addAttribute hadd _)).bind
      fun _ => maintains_modify fun _ => rfl

end ClassM

namespace ClassDraft

section

variable (hadd : ∀ {pool c i pool'}, P pool → PoolM.add c pool = .ok i pool' → P pool')
include hadd

theorem after_invariant (edit : Edit) (h : P d.pool) : P (d.after edit).pool := by
  have hm := ClassM.maintains_perform (PoolM.maintains_add hadd) edit
  rw [after]
  cases hd : edit.perform d with
  | ok _ e => exact hm.of_ok hd h
  | error fault e => exact hm.of_error hd h

theorem make_invariant {version : Version} {flags : AccessFlags .type} {superName : Option String}
    {interfaces : List String} (hempty : P empty)
    (h : make version flags name superName interfaces = .ok d) : P d.pool := by
  have hadd := PoolM.maintains_add hadd
  unfold make at h
  dsimp only at h
  split at h
  · cases h
  · rename_i thisClass superClass pool hhead
    have hpool : P pool := by
      refine EStateM.Maintains.of_ok ?_ hhead hempty
      refine (PoolM.maintains_addTypeName hadd name).bind fun _ => EStateM.Maintains.bind ?_
        fun _ => maintains_pure _
      cases superName with
      | none => exact maintains_pure _
      | some superName =>
        exact (PoolM.maintains_addTypeName hadd superName).bind fun _ => maintains_pure _
    split at h
    · rename_i hd
      cases h
      exact (ClassM.maintains_addInterfaces hadd interfaces).of_ok hd hpool
    · cases h

end

end ClassDraft

end Classfile
