import Classfile.Proofs.Draft.Field
import Classfile.Proofs.Draft.Method
import Classfile.Proofs.Pool.Requests

/-!
What building a member does to the pool. All that it does is to add constants, one by one, so what
every addition keeps it keeps, also when it fails halfway.
-/
namespace Classfile

open ConstantPool
open EStateM (Maintains maintains_pure)

variable {α β : Type} {P : ConstantPool → Prop} (hadd : ∀ c, EStateM.Maintains P (PoolM.add c))
include hadd

namespace PoolM

theorem maintains_addUnless [Payload α] (skip : Bool) (payload : α) :
    Maintains P (addUnless skip payload) := by
  cases skip with
  | true => exact maintains_pure _
  | false => exact (maintains_addAttribute hadd payload).bind fun _ => maintains_pure _

theorem maintains_addNamed (skip : Bool) (name : String) (info : List UInt8) :
    Maintains P (addNamed skip name info) := by
  cases skip with
  | true => exact maintains_pure _
  | false => exact (hadd _).bind fun _ => maintains_pure _

theorem maintains_addAnnotations (uses : List AnnotationUse) :
    Maintains P (addAnnotations uses) := by
  rw [addAnnotations_eq]
  refine maintains_ask.bind fun visible => maintains_ask.bind fun invisible => ?_
  refine (maintains_addNamed hadd _ _ _).bind fun _ => ?_
  exact (maintains_addNamed hadd _ _ _).bind fun _ => maintains_pure _

theorem maintains_addParameterAnnotations (parameters : List (List AnnotationUse)) :
    Maintains P (addParameterAnnotations parameters) := by
  rw [addParameterAnnotations_eq]
  refine (maintains_addUnless hadd _ _).bind fun _ => ?_
  exact (maintains_addUnless hadd _ _).bind fun _ => maintains_pure _

end PoolM

open PoolM

theorem FieldDraft.maintains_build (d : FieldDraft) : Maintains P d.build := by
  rw [build_eq]
  refine (hadd _).bind fun name => (hadd _).bind fun descriptor => Maintains.bind ?_ fun initial =>
    (maintains_addAnnotations hadd _).bind fun annotations => maintains_pure _
  unfold addInitial
  cases d.initialValue with
  | none => exact maintains_pure _
  | some value => exact (maintains_addAttribute hadd _).bind fun _ => maintains_pure _

namespace MethodDraft

theorem maintains_addTable (make : List α → β) [Payload β] (entries : Except Fault (List α)) :
    Maintains P (addTable make entries) := by
  refine maintains_ask.bind fun entries => ?_
  cases entries with
  | nil => exact maintains_pure _
  | cons x entries => exact (maintains_addAttribute hadd _).bind fun _ => maintains_pure _

theorem maintains_buildCode (d : MethodDraft) : Maintains P d.buildCode := by
  refine maintains_ask.bind fun code => maintains_ask.bind fun handlers => ?_
  refine (maintains_addTable hadd _ _).bind fun lines => ?_
  refine (maintains_addTable hadd _ _).bind fun scopes => ?_
  refine (maintains_addTable hadd _ _).bind fun typeScopes => ?_
  exact maintains_ask.bind fun _ => maintains_pure _

theorem maintains_build (d : MethodDraft) : Maintains P d.build := by
  rw [build_eq]
  refine (hadd _).bind fun name => (hadd _).bind fun descriptor => Maintains.bind ?_ fun code => ?_
  · unfold addCode
    split
    · exact maintains_pure _
    · refine (maintains_buildCode hadd d).bind fun body => ?_
      exact (maintains_addAttribute hadd body).bind fun _ => maintains_pure _
  · refine (maintains_addUnless hadd _ _).bind fun exceptions => ?_
    refine (maintains_addAnnotations hadd _).bind fun annotations => ?_
    exact (maintains_addParameterAnnotations hadd _).bind fun _ => maintains_pure _

end MethodDraft

end Classfile
