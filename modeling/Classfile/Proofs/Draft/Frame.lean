import Classfile.Proofs.Draft.Lasting
import Classfile.Proofs.Draft.Maintenance

/-!
What an edit of a class does not touch. The members of a class share its pool, which grows when one
of them is built, but all other members still become the same drafts.
-/
namespace Classfile

open ConstantPool

variable {d e : ClassDraft} {owner : FlagOwner} {δ : Type}

namespace ClassDraft

/-- The class keeps its name, and its pool has only grown. -/
structure Sustains (d e : ClassDraft) : Prop where
  thisClass : e.thisClass = d.thisClass
  pool : e.pool.Regular ∧ d.pool.Grows e.pool

theorem Grown.sustains (h : d.Grown e) (hp : d.pool.Regular) : d.Sustains e := by
  obtain ⟨pool, hpool, rfl⟩ := h
  exact ⟨rfl, hpool hp⟩

theorem Takes.sustains {edit : Edit} (h : d.Takes edit e) (hp : d.pool.Regular) :
    d.Sustains e := by
  have hsame : d.pool.Regular ∧ d.pool.Grows d.pool := ⟨hp, .refl d.pool⟩
  cases h with
  | addMethod h => exact ⟨rfl, (enlarges_method _).of_ok h hp⟩
  | replaceMethod _ h => exact ⟨rfl, (enlarges_method _).of_ok h hp⟩
  | removeMethod => exact ⟨rfl, hsame⟩
  | addField h => exact ⟨rfl, (enlarges_field _).of_ok h hp⟩
  | replaceField _ h => exact ⟨rfl, (enlarges_field _).of_ok h hp⟩
  | removeField => exact ⟨rfl, hsame⟩
  | addInterface h => exact ⟨rfl, (enlarges_interface _).of_ok h hp⟩
  | removeInterface => exact ⟨rfl, hsame⟩
  | addAnnotation => exact ⟨rfl, hsame⟩
  | addAttribute h => exact ⟨rfl, (enlarges_attribute _).of_ok h hp⟩
  | setSourceFile hi h =>
    exact ⟨rfl, (enlarges_sourceFile _).of_ok (EStateM.bind_eq_ok.mpr ⟨_, _, hi, h⟩) hp⟩

theorem sustains_after (hp : d.pool.Regular) (edit : Edit) : d.Sustains (d.after edit) := by
  unfold after
  cases h : edit.perform d with
  | ok _ e => exact (takes_of_perform h).sustains hp
  | error fault e => exact (grown_of_perform h).sustains hp

/-- The classes that a program can get hold of. Their pools are at hand, too. -/
inductive Reachable : ClassDraft → Prop
  | make {version : Version} {flags : AccessFlags .type} {name : String}
      {superName : Option String} {interfaces : List String} {d : ClassDraft}
      (h : make version flags name superName interfaces = .ok d) : Reachable d
  | ofImage {c : ClassImage} {first : Nat} {constants : List Constant} {d : ClassDraft}
      (hc : c.constants = WidthTable.ofList first constants) (h : ofImage c = .ok d) : Reachable d
  | edit {d : ClassDraft} (hd : Reachable d) (edit : Edit) : Reachable (d.after edit)
  | assign {d : ClassDraft} (hd : Reachable d) (version : Version) (flags : AccessFlags .type) :
      Reachable { d with version, flags }
  | request {d : ClassDraft} (hd : Reachable d) (r : Request) :
      Reachable { d with pool := d.pool.after r }
  /-- Another pool takes the place of the old one. -/
  | assignPool {d : ClassDraft} {first : Nat} {constants : List Constant} {pool : ConstantPool}
      (hd : Reachable d) (h : ofTable (WidthTable.ofList first constants) = .ok pool) :
      Reachable { d with pool }

theorem Reachable.faithful (h : d.Reachable) : d.pool.Faithful := by
  have hadd : ∀ {pool c i pool'}, pool.Faithful → PoolM.add c pool = .ok i pool' →
      pool'.Faithful := fun hp h => (PoolM.faithful_add hp h).1
  induction h with
  | make h => exact make_invariant hadd coherent_empty.faithful h
  | ofImage hc h => exact faithful_ofTable (hc ▸ (ofImage_eq_ok.mp h).pool)
  | edit _ edit ih => exact after_invariant hadd edit ih
  | assign _ _ _ ih => exact ih
  | request _ r ih => exact ConstantPool.after_invariant hadd r ih
  | assignPool _ h => exact faithful_ofTable h

theorem Reachable.regular (h : d.Reachable) : d.pool.Regular := h.faithful.regular

end ClassDraft

namespace MemberKind

variable {kind : MemberKind owner δ} {name descriptor : String} {p : Nat} {old m : Member owner}

/-- The first member with the name and the descriptor makes way for others. Those before it and
behind it stay. -/
def Swaps (kind : MemberKind owner δ) (d e : ClassDraft) (name descriptor : String)
    (new : List (Member owner)) : Prop :=
  ∃ before old after, kind.find d name descriptor = .ok (before.length, old) ∧
    kind.members d = before ++ old :: after ∧ kind.members e = before ++ new ++ after

theorem members_of_find (h : kind.find d name descriptor = .ok (p, old)) :
    ∃ before after, kind.members d = before ++ old :: after ∧ before.length = p := by
  have hm : (kind.members d)[p]? = some old := by
    unfold find at h
    split at h
    · cases h
    · split at h
      · cases h
      · cases h
        assumption
  obtain ⟨hlt, rfl⟩ := List.getElem?_eq_some_iff.mp hm
  refine ⟨(kind.members d).take p, (kind.members d).drop (p + 1), ?_, ?_⟩
  · rw [List.getElem_cons_drop, List.take_append_drop]
  · exact List.length_take_of_le hlt.le

theorem swaps_set (h : kind.find d name descriptor = .ok (p, old))
    (he : kind.members e = (kind.members d).set p m) : kind.Swaps d e name descriptor [m] := by
  obtain ⟨before, after, hd, rfl⟩ := members_of_find h
  refine ⟨before, old, after, h, hd, ?_⟩
  rw [he, hd, List.set_append_right before.length m (Nat.le_refl _), Nat.sub_self,
    List.set_cons_zero, List.append_cons]

theorem swaps_eraseIdx (h : kind.find d name descriptor = .ok (p, old))
    (he : kind.members e = (kind.members d).eraseIdx p) : kind.Swaps d e name descriptor [] := by
  obtain ⟨before, after, hd, rfl⟩ := members_of_find h
  refine ⟨before, old, after, h, hd, ?_⟩
  rw [he, hd, List.eraseIdx_append_of_length_le (Nat.le_refl _), Nat.sub_self,
    List.eraseIdx_cons_zero, List.append_nil]

end MemberKind

namespace ClassDraft

/-- What a successful edit does to the methods of a class. -/
def Edit.OnMethods (d e : ClassDraft) : Edit → Prop
  | .addMethod draft => ∃ m pool, draft.build d.pool = .ok m pool ∧ e.methods = d.methods ++ [m]
  | .replaceMethod name descriptor draft => ∃ m pool, draft.build d.pool = .ok m pool ∧
      MemberKind.methods.Swaps d e name descriptor [m]
  | .removeMethod name descriptor => MemberKind.methods.Swaps d e name descriptor []
  | _ => e.methods = d.methods

/-- What a successful edit does to the fields of a class. -/
def Edit.OnFields (d e : ClassDraft) : Edit → Prop
  | .addField draft => ∃ f pool, draft.build d.pool = .ok f pool ∧ e.fields = d.fields ++ [f]
  | .replaceField name descriptor draft => ∃ f pool, draft.build d.pool = .ok f pool ∧
      MemberKind.fields.Swaps d e name descriptor [f]
  | .removeField name descriptor => MemberKind.fields.Swaps d e name descriptor []
  | _ => e.fields = d.fields

theorem Takes.members {edit : Edit} (h : d.Takes edit e) :
    edit.OnMethods d e ∧ edit.OnFields d e := by
  cases h with
  | addMethod h => exact ⟨⟨_, _, h, rfl⟩, rfl⟩
  | replaceMethod hf h => exact ⟨⟨_, _, h, MemberKind.swaps_set hf rfl⟩, rfl⟩
  | removeMethod hf => exact ⟨MemberKind.swaps_eraseIdx hf rfl, rfl⟩
  | addField h => exact ⟨rfl, ⟨_, _, h, rfl⟩⟩
  | replaceField hf h => exact ⟨rfl, ⟨_, _, h, MemberKind.swaps_set hf rfl⟩⟩
  | removeField hf => exact ⟨rfl, MemberKind.swaps_eraseIdx hf rfl⟩
  | addInterface | removeInterface | addAnnotation | addAttribute | setSourceFile =>
    exact ⟨rfl, rfl⟩

/-- An edit adds, replaces or removes one member at most, and the others stay in their order. When
it fails, nothing changes but the pool. In either case all members that became drafts before still
become the same ones. -/
theorem frame_of_edit (hd : d.Reachable) (edit : Edit) :
    (∀ e, edit.perform d = .ok () e → edit.OnMethods d e ∧ edit.OnFields d e) ∧
    (∀ fault e, edit.perform d = .error fault e → ∃ pool, e = { d with pool }) ∧
    (∀ m draft, MemberKind.methods.wrap d m = .ok draft →
      MemberKind.methods.wrap (d.after edit) m = .ok draft) ∧
    ∀ f draft, MemberKind.fields.wrap d f = .ok draft →
      MemberKind.fields.wrap (d.after edit) f = .ok draft := by
  have hs := sustains_after hd.regular edit
  refine ⟨fun e h => (takes_of_perform h).members, fun fault e h => ?_, fun m draft h => ?_,
    fun f draft h => ?_⟩
  · obtain ⟨pool, -, he⟩ := grown_of_perform h
    exact ⟨pool, he⟩
  · exact MemberKind.within_wrap_methods hs.pool.2 hs.thisClass m h
  · exact MemberKind.within_wrap_fields hs.pool.2 f h

open ClassImage in
/-- When its field is removed, the method of the class is left as it was, and becomes the same
draft. -/
theorem frame_of_edit_removeField : tallyDraft.Reachable ∧
    (Edit.removeField "start" "J").perform tallyDraft = .ok () { tallyDraft with fields := [] } ∧
    (Edit.removeField "start" "J").OnMethods tallyDraft { tallyDraft with fields := [] } ∧
    (Edit.removeField "start" "J").OnFields tallyDraft { tallyDraft with fields := [] } ∧
    ∃ m, tallyDraft.methods = [m] ∧ MemberKind.methods.wrap tallyDraft m = .ok tallyMethod ∧
      MemberKind.methods.wrap (tallyDraft.after (.removeField "start" "J")) m =
        .ok tallyMethod := by
  have hd : tallyDraft.Reachable := .ofImage (c := tally) rfl rfl
  have hp : (Edit.removeField "start" "J").perform tallyDraft =
    .ok () { tallyDraft with fields := [] } := rfl
  obtain ⟨hok, -, hwrap, -⟩ := frame_of_edit hd (.removeField "start" "J")
  obtain ⟨hm, hf⟩ := hok _ hp
  exact ⟨hd, hp, hm, hf, _, rfl, rfl, hwrap _ _ rfl⟩

end ClassDraft

end Classfile
