import Classfile.Proofs.Annotation.Uses
import Classfile.Proofs.Pool.Held

/-! Annotations that were found among attributes are stored again without adding to the pool. -/
namespace Classfile

open ConstantPool

variable {pool : ConstantPool} {uses : List AnnotationUse}
  {parameters : List (List AnnotationUse)} {u : AnnotationUse} {a : Attribute}
  {attributes : List Attribute}

/-- The name of the attribute with the annotations of a visibility. -/
def annotationName (visible : Bool) : String :=
  if visible then Payload.name VisibleAnnotations else Payload.name InvisibleAnnotations

/-- The name of the attribute with the annotations of parameters of a visibility. -/
def parameterAnnotationName (visible : Bool) : String :=
  if visible then Payload.name VisibleParameterAnnotations
  else Payload.name InvisibleParameterAnnotations

namespace ConstantPool

theorem held_of_annotationsIn (h : pool.annotationsIn a = .ok uses) (hu : u ∈ uses) :
    pool.Held (annotationName u.visible) := by
  obtain ⟨q, hv, h⟩ := Except.bind_eq_ok.mp h
  cases q with
  | some p =>
    cases h
    obtain ⟨b, -, rfl⟩ := List.mem_map.mp hu
    exact held_of_payload? hv
  | none =>
    obtain ⟨q, hi, h⟩ := Except.bind_eq_ok.mp h
    cases q with
    | some p =>
      cases h
      obtain ⟨b, -, rfl⟩ := List.mem_map.mp hu
      exact held_of_payload? hi
    | none =>
      cases h
      cases hu

theorem held_of_annotations (h : pool.annotations attributes = .ok uses) :
    ∀ u ∈ uses, pool.Held (annotationName u.visible) := by
  obtain ⟨found, hf, h⟩ := Except.bind_eq_ok.mp h
  obtain ⟨_, -, h⟩ := Except.bind_eq_ok.mp h
  cases h
  intro u hu
  obtain ⟨us, hm, hu⟩ := List.mem_flatten.mp hu
  obtain ⟨a, -, ha⟩ := Except.exists_of_mem_mapM hf hm
  exact held_of_annotationsIn ha hu

theorem held_of_parameterAnnotationsIn (h : pool.parameterAnnotationsIn a = .ok parameters)
    (hu : u ∈ parameters.flatten) : pool.Held (parameterAnnotationName u.visible) := by
  obtain ⟨us, hm, hu⟩ := List.mem_flatten.mp hu
  obtain ⟨q, hv, h⟩ := Except.bind_eq_ok.mp h
  cases q with
  | some p =>
    cases h
    obtain ⟨annotations, -, rfl⟩ := List.mem_map.mp hm
    obtain ⟨b, -, rfl⟩ := List.mem_map.mp hu
    exact held_of_payload? hv
  | none =>
    obtain ⟨q, hi, h⟩ := Except.bind_eq_ok.mp h
    cases q with
    | some p =>
      cases h
      obtain ⟨annotations, -, rfl⟩ := List.mem_map.mp hm
      obtain ⟨b, -, rfl⟩ := List.mem_map.mp hu
      exact held_of_payload? hi
    | none =>
      cases h
      cases hm

theorem mem_mergeParameters {more : List (List AnnotationUse)}
    (h : u ∈ (mergeParameters parameters more).flatten) :
    u ∈ parameters.flatten ∨ u ∈ more.flatten := by
  induction parameters generalizing more with
  | nil => exact .inr h
  | cons uses parameters ih =>
    cases more with
    | nil => exact .inl h
    | cons us more =>
      rw [mergeParameters, List.flatten_cons, List.append_assoc, List.mem_append,
        List.mem_append] at h
      rw [List.flatten_cons, List.flatten_cons, List.mem_append, List.mem_append]
      rcases h with h | h | h
      · exact .inl (.inl h)
      · exact .inr (.inl h)
      · rcases ih h with h | h
        · exact .inl (.inr h)
        · exact .inr (.inr h)

theorem mem_foldl_mergeParameters {found : List (List (List AnnotationUse))}
    (h : u ∈ (found.foldl mergeParameters parameters).flatten) :
    u ∈ parameters.flatten ∨ ∃ f ∈ found, u ∈ f.flatten := by
  induction found generalizing parameters with
  | nil => exact .inl h
  | cons f found ih =>
    rcases ih h with h | ⟨g, hg, h⟩
    · rcases mem_mergeParameters h with h | h
      · exact .inl h
      · exact .inr ⟨f, List.mem_cons_self, h⟩
    · exact .inr ⟨g, List.mem_cons_of_mem _ hg, h⟩

theorem held_of_parameterAnnotations
    (h : pool.parameterAnnotations attributes = .ok parameters) :
    ∀ u ∈ parameters.flatten, pool.Held (parameterAnnotationName u.visible) := by
  obtain ⟨found, hf, h⟩ := Except.bind_eq_ok.mp h
  obtain ⟨_, -, h⟩ := Except.bind_eq_ok.mp h
  cases h
  intro u hu
  rcases mem_foldl_mergeParameters hu with hu | ⟨f, hm, hu⟩
  · cases hu
  · obtain ⟨a, -, ha⟩ := Except.exists_of_mem_mapM hf hm
    exact held_of_parameterAnnotationsIn ha hu

end ConstantPool

namespace PoolM

theorem exists_of_isEmpty_annotationsOf {visible : Bool}
    (h : (annotationsOf visible uses).isEmpty = false) : ∃ u ∈ uses, u.visible = visible := by
  cases hu : annotationsOf visible uses with
  | nil => simp [hu] at h
  | cons b annotations =>
    have hm : b ∈ annotationsOf visible uses := by simp [hu]
    obtain ⟨u, hu, -⟩ := List.mem_map.mp hm
    exact ⟨u, (List.mem_filter.mp hu).1, by simpa using (List.mem_filter.mp hu).2⟩

theorem keeps_addNamed {skip : Bool} {name : String} {info : List UInt8} (hp : pool.Faithful)
    (ht : skip = false → pool.Held name) : Keeps pool (addNamed skip name info) := by
  cases skip with
  | true => exact keeps_pure _
  | false => exact (keeps_addText hp (ht rfl)).bind fun i => keeps_pure _

theorem held_of_isEmpty_annotationsOf {visible : Bool}
    (ht : ∀ u ∈ uses, pool.Held (annotationName u.visible))
    (h : (annotationsOf visible uses).isEmpty = false) : pool.Held (annotationName visible) := by
  obtain ⟨u, hu, rfl⟩ := exists_of_isEmpty_annotationsOf h
  exact ht u hu

theorem keeps_addAnnotations (hp : pool.Faithful)
    (ht : ∀ u ∈ uses, pool.Held (annotationName u.visible)) :
    Keeps pool (addAnnotations uses) := by
  have hn : ∀ visible, (annotationsOf visible uses).isEmpty = false →
      pool.Held (annotationName visible) := fun _ => held_of_isEmpty_annotationsOf ht
  rw [addAnnotations_eq]
  exact keeps_ask.bind fun _ => keeps_ask.bind fun _ => (keeps_addNamed hp (hn true)).bind fun _ =>
    (keeps_addNamed hp (hn false)).bind fun _ => keeps_pure _

theorem keeps_addParameterAnnotations (hp : pool.Faithful)
    (ht : ∀ u ∈ parameters.flatten, pool.Held (parameterAnnotationName u.visible)) :
    Keeps pool (addParameterAnnotations parameters) := by
  have hn : ∀ visible, (parameters.map (annotationsOf visible)).all List.isEmpty = false →
      pool.Held (parameterAnnotationName visible) := by
    intro visible h
    rw [List.all_map, List.all_eq_false] at h
    obtain ⟨us, hm, h⟩ := h
    obtain ⟨u, hu, rfl⟩ := exists_of_isEmpty_annotationsOf (Bool.eq_false_iff.mpr h)
    exact ht u (List.mem_flatten.mpr ⟨us, hm, hu⟩)
  rw [addParameterAnnotations_eq]
  exact (keeps_addUnless hp (hn true)).bind fun _ =>
    (keeps_addUnless hp (hn false)).bind fun _ => keeps_pure _

/-! ### The order does not matter -/

theorem addAnnotations_byVisibility : addAnnotations (byVisibility uses) = addAnnotations uses := by
  rw [addAnnotations_eq, addAnnotations_eq, annotationsOf_byVisibility,
    annotationsOf_byVisibility]

theorem addParameterAnnotations_byVisibility :
    addParameterAnnotations (parametersByVisibility parameters) =
      addParameterAnnotations parameters := by
  rw [addParameterAnnotations_eq, addParameterAnnotations_eq, parametersByVisibility]
  split
  · rename_i h
    rw [← all_isEmpty_annotationsOf, Bool.and_eq_true] at h
    rw [h.1, h.2]
    rfl
  · have hb : ∀ visible, (parameters.map byVisibility).map (annotationsOf visible) =
        parameters.map (annotationsOf visible) := by
      intro visible
      rw [List.map_map]
      exact List.map_congr_left fun us _ => annotationsOf_byVisibility visible
    rw [hb, hb]

end PoolM

end Classfile
