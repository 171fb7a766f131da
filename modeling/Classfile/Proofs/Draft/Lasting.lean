import Classfile.Draft.Method
import Classfile.Proofs.Annotation.Uses
import Classfile.Proofs.Code.Lasting
import Classfile.Proofs.Draft.Rebuild

/-!
A stored member that becomes a draft still becomes the same draft when the pool has grown, whatever
was added to the pool.
-/
namespace Classfile

open Except

variable {pool pool' : ConstantPool}

namespace ConstantPool.Grows

theorem within_check (h : pool.Grows pool') (u : AnnotationUse) :
    (u.check pool).Within (u.check pool') := fun _ => AnnotationUse.check_grows h

theorem within_annotations (h : pool.Grows pool') (attributes : List Attribute) :
    (pool.annotations attributes).Within (pool'.annotations attributes) := by
  have hin : ∀ a, (pool.annotationsIn a).Within (pool'.annotationsIn a) := by
    intro a
    refine (h.within_payload? VisibleAnnotations a).bind fun visible => ?_
    cases visible with
    | some p => exact .refl _
    | none => exact (h.within_payload? InvisibleAnnotations a).bind fun _ => .refl _
  refine (within_mapM hin attributes).bind fun uses => ?_
  exact (within_forM h.within_check _).bind fun _ => .refl _

theorem within_parameterAnnotations (h : pool.Grows pool') (attributes : List Attribute) :
    (pool.parameterAnnotations attributes).Within (pool'.parameterAnnotations attributes) := by
  have hin : ∀ a, (pool.parameterAnnotationsIn a).Within (pool'.parameterAnnotationsIn a) := by
    intro a
    refine (h.within_payload? VisibleParameterAnnotations a).bind fun visible => ?_
    cases visible with
    | some p => exact .refl _
    | none => exact (h.within_payload? InvisibleParameterAnnotations a).bind fun _ => .refl _
  refine (within_mapM hin attributes).bind fun parameters => ?_
  exact (within_forM h.within_check _).bind fun _ => .refl _

end ConstantPool.Grows

namespace FieldDraft

theorem within_setInitialValue (h : pool.Grows pool') (d : FieldDraft) (value : ConstantIndex) :
    ((FieldM.setInitialValue value).result d pool).Within
      ((FieldM.setInitialValue value).result d pool') := by
  intro e he
  obtain ⟨⟨c, hc, ha⟩, he⟩ := setInitialValue_eq_ok.mp he
  exact setInitialValue_eq_ok.mpr ⟨⟨c, h.within_get value hc, ha⟩, he⟩

theorem within_absorb (h : pool.Grows pool') (d : FieldDraft) (a : Attribute) :
    (absorb pool d a).Within (absorb pool' d a) := by
  refine (h.within_text a.name).bind fun name => ?_
  refine (h.within_payload? ConstantValue a).bind fun value => ?_
  cases value with
  | some p => exact within_setInitialValue h d p.value
  | none => exact .refl _

theorem within_ofField (h : pool.Grows pool') (f : Field) :
    (ofField pool f).Within (ofField pool' f) := by
  refine (h.within_text f.name).bind fun name => ?_
  refine (h.within_text f.descriptor).bind fun descriptor => ?_
  cases make f.flags name descriptor with
  | error e => exact .refl _
  | ok d =>
    refine (within_foldlM (within_absorb h) f.attributes d).bind fun d => ?_
    exact (h.within_annotations f.attributes).bind fun _ => .refl _

end FieldDraft

namespace MethodDraft

variable {code : DecodedCode} {length : Nat}

theorem within_wrapHandler (h : pool.Grows pool') (d : MethodDraft) (handler : ExceptionHandler) :
    (wrapHandler pool d code length handler).Within (wrapHandler pool' d code length handler) := by
  refine (Within.refl _).bind fun ends => (Within.refl _).bind fun target => ?_
  exact (within_optionMapM (h.within_checked _) _).bind fun _ => .refl _

theorem within_wrapScopes (h : pool.Grows pool') (d : MethodDraft) (ranges : List VariableRange) :
    (wrapScopes pool d code length ranges).Within (wrapScopes pool' d code length ranges) := by
  refine (within_mapM (fun r => ?_) ranges).bind fun _ => .refl _
  unfold wrapScope
  split
  · exact .refl _
  · refine (Within.refl _).bind fun ends => ?_
    refine (h.within_text r.name).discard.bind fun _ => ?_
    exact (h.within_text r.descriptor).discard.bind fun _ => .refl _

theorem within_absorbCode (h : pool.Grows pool') (d : MethodDraft) (a : Attribute) :
    (absorbCode pool code length d a).Within (absorbCode pool' code length d a) := by
  refine (h.within_payload? LineNumberTable a).bind fun lines => ?_
  cases lines with
  | some p => exact .refl _
  | none =>
    refine (h.within_payload? LocalVariableTable a).bind fun scopes => ?_
    cases scopes with
    | some p => exact (within_wrapScopes h d p.ranges).bind fun _ => .refl _
    | none =>
      refine (h.within_payload? LocalVariableTypeTable a).bind fun typeScopes => ?_
      cases typeScopes with
      | some p => exact (within_wrapScopes h d p.ranges).bind fun _ => .refl _
      | none => exact .refl _

theorem within_wrapCode (h : pool.Grows pool') (d : MethodDraft) (body : CodeBody) :
    (wrapCode pool d body).Within (wrapCode pool' d body) := by
  refine (within_decodeCode h body.code).bind fun code => ?_
  refine (within_mapM (within_wrapHandler h d) body.handlers).bind fun handlers => ?_
  exact within_foldlM (within_absorbCode h) body.attributes _

theorem within_absorb (h : pool.Grows pool') (d : MethodDraft) (a : Attribute) :
    (absorb pool d a).Within (absorb pool' d a) := by
  refine (h.within_text a.name).bind fun name => ?_
  refine (h.within_payload? CodeBody a).bind fun body => ?_
  cases body with
  | some body => exact within_wrapCode h d body
  | none =>
    refine (h.within_payload? Exceptions a).bind fun exceptions => ?_
    cases exceptions with
    | some p => exact (within_mapM (h.within_checked _) p.types).bind fun _ => .refl _
    | none => exact .refl _

theorem within_ofMethod (h : pool.Grows pool') (owner : String) (m : Method) :
    (ofMethod pool owner m).Within (ofMethod pool' owner m) := by
  refine (h.within_text m.name).bind fun name => ?_
  refine (h.within_text m.descriptor).bind fun descriptor => ?_
  cases make m.flags name descriptor owner with
  | error e => exact .refl _
  | ok d =>
    refine (within_foldlM (within_absorb h) m.attributes d).bind fun d => ?_
    refine (h.within_annotations m.attributes).bind fun annotations => ?_
    exact (h.within_parameterAnnotations m.attributes).bind fun _ => .refl _

end MethodDraft

namespace MemberKind

variable {d e : ClassDraft}

/-- Drafts of methods have the name of the class, which must not become another one. -/
theorem within_wrap_methods (h : d.pool.Grows e.pool) (hc : e.thisClass = d.thisClass)
    (m : Method) : (methods.wrap d m).Within (methods.wrap e m) := by
  have hn : d.name.Within e.name := by
    rw [ClassDraft.name, ClassDraft.name, hc]
    exact h.within_typeName d.thisClass
  exact hn.bind fun owner => MethodDraft.within_ofMethod h owner m

theorem within_wrap_fields (h : d.pool.Grows e.pool) (f : Field) :
    (fields.wrap d f).Within (fields.wrap e f) := FieldDraft.within_ofField h f

end MemberKind

end Classfile
