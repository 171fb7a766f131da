import Classfile.Proofs.Annotation.Exact
import Classfile.Proofs.Annotation.Uses

/-!
Annotations that were found among attributes can be written, since whatever is counted in them had
room for its count in the bytes they come from.
-/
namespace Classfile

open Reader

variable {pool : ConstantPool} {a : Attribute} {attributes : List Attribute}
  {uses : List AnnotationUse} {annotations : List Annotation}

theorem Annotation.ensures_read : read.Ensures Writable :=
  takes_read.ensures fun _ _ h => h.2.writable

theorem VisibleAnnotations.ensures_read : (Payload.read : Reader VisibleAnnotations).Ensures
    fun p => ∀ a ∈ p.annotations, a.Writable :=
  Ensures.bind Annotation.ensures_read.counted fun _ ha => ensures_pure ha

theorem InvisibleAnnotations.ensures_read : (Payload.read : Reader InvisibleAnnotations).Ensures
    fun p => ∀ a ∈ p.annotations, a.Writable :=
  Ensures.bind Annotation.ensures_read.counted fun _ ha => ensures_pure ha

namespace ConstantPool

theorem writable_of_annotationsIn (h : pool.annotationsIn a = .ok uses) :
    ∀ u ∈ uses, u.body.Writable := by
  obtain ⟨q, hv, h⟩ := Except.bind_eq_ok.mp h
  cases q with
  | some p =>
    cases h
    have hp := VisibleAnnotations.ensures_read (payload?_eq_some hv).2
    simpa using hp
  | none =>
    obtain ⟨q, hi, h⟩ := Except.bind_eq_ok.mp h
    cases q with
    | some p =>
      cases h
      have hp := InvisibleAnnotations.ensures_read (payload?_eq_some hi).2
      simpa using hp
    | none =>
      cases h
      exact nofun

theorem writable_of_annotations (h : pool.annotations attributes = .ok uses) :
    ∀ u ∈ uses, u.body.Writable := by
  obtain ⟨found, hf, h⟩ := Except.bind_eq_ok.mp h
  obtain ⟨_, -, h⟩ := Except.bind_eq_ok.mp h
  cases h
  intro u hu
  obtain ⟨us, hm, hu⟩ := List.mem_flatten.mp hu
  obtain ⟨a, -, ha⟩ := Except.exists_of_mem_mapM hf hm
  exact writable_of_annotationsIn ha u hu

end ConstantPool

theorem exists_annotationBytes (hl : annotations.length ≤ 65535)
    (h : ∀ a ∈ annotations, a.Writable) : ∃ info, annotationBytes annotations = .ok info := by
  obtain ⟨info, hi⟩ := Writer.exists_counted hl h
  refine ⟨info, ?_⟩
  rw [annotationBytes, if_neg (Nat.not_lt.mpr hl), hi]
  rfl

theorem length_annotationsOf_le (visible : Bool) :
    (annotationsOf visible uses).length ≤ uses.length := by
  rw [annotationsOf, List.length_map]
  exact List.length_filter_le _ _

theorem exists_annotationBytes_of_uses {visible : Bool}
    (hl : (annotationsOf visible uses).length ≤ 65535) (hw : ∀ u ∈ uses, u.body.Writable) :
    ∃ info, annotationBytes (annotationsOf visible uses) = .ok info := by
  refine exists_annotationBytes hl fun a ha => ?_
  obtain ⟨u, hu, rfl⟩ := List.mem_map.mp ha
  exact hw u (List.mem_filter.mp hu).1

end Classfile
