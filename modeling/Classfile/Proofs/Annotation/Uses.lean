import Classfile.Annotation.Uses
import Classfile.Proofs.Annotation.Binary
import Classfile.Proofs.Attribute.Payload

/-!
Annotations that were stored are found again among the attributes. The visible ones come before the
others, since each visibility has an attribute of its own.
-/
namespace Classfile

open ConstantPool

variable {pool pool' : ConstantPool} {uses : List AnnotationUse}
  {parameters : List (List AnnotationUse)} {a : Attribute} {xs ys attributes : List Attribute}

/-! ### What fits a pool fits it when it has grown -/

namespace ElementValue

mutual

theorem check_grows (hg : pool.Grows pool') :
    (v : ElementValue) → v.check pool = .ok () → v.check pool' = .ok ()
  | number type value, h => by
    obtain ⟨c, hc, -⟩ := Except.map_eq_ok.mp h
    exact Except.map_eq_ok.mpr ⟨c, hg.require hc, rfl⟩
  | string i, h | typeLiteral i, h => by
    obtain ⟨t, ht, -⟩ := Except.map_eq_ok.mp h
    exact Except.map_eq_ok.mpr ⟨t, hg.text ht, rfl⟩
  | enumeration type name, h => by
    obtain ⟨_, ht, h⟩ := Except.bind_eq_ok.mp h
    obtain ⟨t, ht, -⟩ := Except.map_eq_ok.mp ht
    obtain ⟨n, hn, -⟩ := Except.map_eq_ok.mp h
    exact Except.bind_eq_ok.mpr ⟨(), Except.map_eq_ok.mpr ⟨t, hg.text ht, rfl⟩,
      Except.map_eq_ok.mpr ⟨n, hg.text hn, rfl⟩⟩
  | nested type elements, h => by
    unfold check at h ⊢
    split at h
    · rename_i t ht
      rw [hg.text ht]
      exact checkElements_grows hg elements h
    · cases h
  | array values, h => by
    unfold check at h ⊢
    exact checkValues_grows hg values h

theorem checkValues_grows (hg : pool.Grows pool') :
    (values : List ElementValue) → checkValues pool values = .ok () →
      checkValues pool' values = .ok ()
  | [], _ => rfl
  | v :: values, h => by
    unfold checkValues at h ⊢
    split at h
    · rename_i u hv
      rw [check_grows hg v hv]
      exact checkValues_grows hg values h
    · cases h

theorem checkElements_grows (hg : pool.Grows pool') :
    (elements : List (ConstantIndex × ElementValue)) → checkElements pool elements = .ok () →
      checkElements pool' elements = .ok ()
  | [], _ => rfl
  | (name, v) :: elements, h => by
    unfold checkElements at h ⊢
    split at h
    · cases h
    · rename_i t ht
      rw [hg.text ht]
      split at h
      · rename_i u hv
        rw [check_grows hg v hv]
        exact checkElements_grows hg elements h
      · cases h

end

end ElementValue

theorem AnnotationUse.check_grows {u : AnnotationUse} (hg : pool.Grows pool')
    (h : u.check pool = .ok ()) : u.check pool' = .ok () := by
  obtain ⟨_, ht, he⟩ := Except.bind_eq_ok.mp h
  obtain ⟨t, ht, -⟩ := Except.map_eq_ok.mp ht
  exact Except.bind_eq_ok.mpr ⟨(), Except.map_eq_ok.mpr ⟨t, hg.text ht, rfl⟩,
    ElementValue.checkElements_grows hg _ he⟩

/-! ### The order in which annotations come back -/

/-- The visible ones before the others. -/
def byVisibility (uses : List AnnotationUse) : List AnnotationUse :=
  (uses.filter fun u => u.visible = true) ++ uses.filter fun u => u.visible = false

theorem mem_byVisibility {u : AnnotationUse} : u ∈ byVisibility uses ↔ u ∈ uses := by
  simp only [byVisibility, List.mem_append, List.mem_filter]
  cases u.visible <;> simp

theorem annotationsOf_map (visible : Bool) :
    ((annotationsOf visible uses).map fun a => (⟨a, visible⟩ : AnnotationUse)) =
      uses.filter fun u => u.visible = visible := by
  rw [annotationsOf, List.map_map]
  refine (List.map_congr_left fun u hu => ?_).trans (List.map_id _)
  have hv := (List.mem_filter.mp hu).2
  simp only [decide_eq_true_eq] at hv
  rw [← hv]
  rfl

theorem annotationsOf_byVisibility (visible : Bool) :
    annotationsOf visible (byVisibility uses) = annotationsOf visible uses := by
  rw [annotationsOf, annotationsOf, byVisibility, List.filter_append, List.filter_filter,
    List.filter_filter]
  cases visible <;> simp

/-- Something without visible and without invisible annotations has none at all. -/
theorem isEmpty_annotationsOf :
    ((annotationsOf true uses).isEmpty && (annotationsOf false uses).isEmpty) = uses.isEmpty := by
  cases uses with
  | nil => rfl
  | cons u uses => cases hv : u.visible <;> simp [annotationsOf, hv]

theorem all_isEmpty_annotationsOf : ((parameters.map (annotationsOf true)).all List.isEmpty &&
    (parameters.map (annotationsOf false)).all List.isEmpty) = parameters.all List.isEmpty := by
  rw [List.all_map, List.all_map]
  induction parameters with
  | nil => rfl
  | cons uses parameters ih =>
    rw [List.all_cons, List.all_cons, List.all_cons, ← ih, ← isEmpty_annotationsOf]
    simp only [Function.comp_apply, Bool.and_assoc, Bool.and_left_comm]

theorem filter_eq_nil_of_all {visible : Bool}
    (h : (parameters.map (annotationsOf visible)).all List.isEmpty) (hu : uses ∈ parameters) :
    (uses.filter fun u => u.visible = visible) = [] := by
  have he := List.all_eq_true.mp h _ (List.mem_map_of_mem hu)
  rw [← annotationsOf_map, List.isEmpty_iff.mp he]
  rfl

/-- Each parameter's annotations in that order; none at all if no parameter has any. -/
def parametersByVisibility (parameters : List (List AnnotationUse)) : List (List AnnotationUse) :=
  if parameters.all List.isEmpty then [] else parameters.map byVisibility

theorem mergeParameters_map (f g : List AnnotationUse → List AnnotationUse) :
    mergeParameters (parameters.map f) (parameters.map g) =
      parameters.map fun uses => f uses ++ g uses := by
  induction parameters with
  | nil => rfl
  | cons uses parameters ih => rw [List.map_cons, List.map_cons, mergeParameters, ih]; rfl

theorem mergeParameters_nil : mergeParameters parameters [] = parameters := by
  cases parameters <;> rfl

theorem foldl_mergeParameters_nil {found : List (List (List AnnotationUse))}
    (h : ∀ f ∈ found, f = []) : found.foldl mergeParameters parameters = parameters := by
  induction found with
  | nil => rfl
  | cons f found ih =>
    rw [List.foldl_cons, h f List.mem_cons_self, mergeParameters_nil]
    exact ih fun g hg => h g (List.mem_cons_of_mem _ hg)

/-! ### Storing annotations -/

theorem annotationBytes_eq_ok {annotations : List Annotation} {info : List UInt8}
    (h : annotationBytes annotations = .ok info) :
    Writer.counted Annotation.write annotations = .ok info := by
  unfold annotationBytes at h
  split at h
  · cases h
  · cases hw : Writer.counted Annotation.write annotations with
    | ok bytes =>
      rw [hw] at h
      cases h
      rfl
    | error e =>
      rw [hw] at h
      cases h

/-- The bytes go beyond the count as soon as there is an annotation. -/
theorem two_lt_length_iff {annotations : List Annotation} {info : List UInt8}
    (h : annotationBytes annotations = .ok info) :
    2 < info.length ↔ annotations.isEmpty = false := by
  have hc := annotationBytes_eq_ok h
  unfold Writer.counted at hc
  split at hc
  · cases hc
  · obtain ⟨body, hb, rfl⟩ := Except.map_eq_ok.mp hc
    obtain ⟨pieces, hp, rfl⟩ := Except.map_eq_ok.mp hb
    rw [List.length_append, BigEndian.length_pack]
    cases annotations with
    | nil =>
      cases hp
      simp
    | cons a annotations =>
      rw [List.mapM_cons] at hp
      obtain ⟨piece, ha, hp⟩ := Except.bind_eq_ok.mp hp
      obtain ⟨rest, -, rfl⟩ := Except.map_eq_ok.mp hp
      have hpos := a.length_pos_of_write ha
      simp only [List.flatten_cons, List.length_append, List.isEmpty_cons, iff_true]
      omega

theorem countAnnotations_pos_iff {places : List (List Annotation)} :
    countAnnotations places > 0 ↔ places.all List.isEmpty = false := by
  have hfrom : ∀ n : Nat, (places.map List.length).foldl (· + ·) n > 0 ↔
      n > 0 ∨ places.all List.isEmpty = false := by
    induction places with
    | nil => simp
    | cons place places ih =>
      intro n
      rw [List.map_cons, List.foldl_cons, ih]
      cases place with
      | nil => simp
      | cons a place =>
        exact iff_of_true (.inl (Nat.add_pos_right n (Nat.succ_pos place.length))) (.inr rfl)
  simpa [countAnnotations] using hfrom 0

namespace PoolM

/-- Add a name for bytes that are there already, unless they are to be left out. -/
def addNamed (skip : Bool) (name : String) (info : List UInt8) : PoolM (List Attribute) :=
  if skip then pure [] else do return [⟨← addText name, info⟩]

theorem addNamed_eq_ok {α : Type} [Payload α] {p : α} {skip : Bool} {info : List UInt8}
    (hp : pool.Faithful) (hw : Payload.write p = .ok info)
    (h : addNamed skip (Payload.name α) info pool = .ok attributes pool') :
    pool'.Faithful ∧ pool.Grows pool' ∧ Attribute.HoldsUnless pool' skip p attributes := by
  cases skip with
  | true =>
    obtain ⟨rfl, rfl⟩ := EStateM.pure_eq_ok.mp h
    exact ⟨hp, Grows.refl _, rfl⟩
  | false =>
    obtain ⟨i, hi, rfl⟩ := EStateM.map_eq_ok.mp h
    obtain ⟨hp', hg, ht⟩ := faithful_addText hp hi
    exact ⟨hp', hg, _, rfl, ht, hw⟩

theorem addAnnotations_eq : addAnnotations uses = do
    let visible ← ask fun _ => annotationBytes (annotationsOf true uses)
    let invisible ← ask fun _ => annotationBytes (annotationsOf false uses)
    let xs ← addNamed (annotationsOf true uses).isEmpty (Payload.name VisibleAnnotations) visible
    let ys ← addNamed (annotationsOf false uses).isEmpty (Payload.name InvisibleAnnotations)
      invisible
    return xs ++ ys := by
  refine ask_bind_congr fun visible hv => ask_bind_congr fun invisible hi => ?_
  have hv : 2 < visible.length ↔ _ := two_lt_length_iff hv
  have hi : 2 < invisible.length ↔ _ := two_lt_length_iff hi
  cases hev : (annotationsOf true uses).isEmpty <;> cases hei : (annotationsOf false uses).isEmpty
  all_goals simp [addNamed, hv, hi, hev, hei]

theorem addParameterAnnotations_eq : addParameterAnnotations parameters = do
    let xs ← addUnless ((parameters.map (annotationsOf true)).all List.isEmpty)
      (VisibleParameterAnnotations.mk (parameters.map (annotationsOf true)))
    let ys ← addUnless ((parameters.map (annotationsOf false)).all List.isEmpty)
      (InvisibleParameterAnnotations.mk (parameters.map (annotationsOf false)))
    return xs ++ ys := by
  unfold addParameterAnnotations
  generalize parameters.map (annotationsOf true) = visible
  generalize parameters.map (annotationsOf false) = invisible
  simp only [countAnnotations_pos_iff]
  cases hv : visible.all List.isEmpty <;> cases hi : invisible.all List.isEmpty <;>
    simp [addUnless]

end PoolM

/-- The attributes hold the annotations, the visible ones before the others. -/
def StoresAnnotations (pool : ConstantPool) (uses : List AnnotationUse)
    (attributes : List Attribute) : Prop :=
  ∃ xs ys, attributes = xs ++ ys ∧
    Attribute.HoldsUnless pool (annotationsOf true uses).isEmpty
      (VisibleAnnotations.mk (annotationsOf true uses)) xs ∧
    Attribute.HoldsUnless pool (annotationsOf false uses).isEmpty
      (InvisibleAnnotations.mk (annotationsOf false uses)) ys

/-- The attributes hold the annotations of the parameters, the visible ones before the others. -/
def StoresParameters (pool : ConstantPool) (parameters : List (List AnnotationUse))
    (attributes : List Attribute) : Prop :=
  ∃ xs ys, attributes = xs ++ ys ∧
    Attribute.HoldsUnless pool ((parameters.map (annotationsOf true)).all List.isEmpty)
      (VisibleParameterAnnotations.mk (parameters.map (annotationsOf true))) xs ∧
    Attribute.HoldsUnless pool ((parameters.map (annotationsOf false)).all List.isEmpty)
      (InvisibleParameterAnnotations.mk (parameters.map (annotationsOf false))) ys

theorem StoresAnnotations.grows (h : StoresAnnotations pool uses attributes)
    (hg : pool.Grows pool') : StoresAnnotations pool' uses attributes := by
  obtain ⟨xs, ys, ha, hx, hy⟩ := h
  exact ⟨xs, ys, ha, hx.grows hg, hy.grows hg⟩

theorem PoolM.addAnnotations_eq_ok (hp : pool.Faithful)
    (h : addAnnotations uses pool = .ok attributes pool') :
    pool'.Faithful ∧ pool.Grows pool' ∧ StoresAnnotations pool' uses attributes := by
  rw [addAnnotations_eq] at h
  obtain ⟨visible, _, hask, h⟩ := EStateM.bind_eq_ok.mp h
  obtain ⟨hv, rfl⟩ := ask_eq_ok.mp hask
  obtain ⟨invisible, _, hask, h⟩ := EStateM.bind_eq_ok.mp h
  obtain ⟨hi, rfl⟩ := ask_eq_ok.mp hask
  obtain ⟨xs, mid, hx, h⟩ := EStateM.bind_eq_ok.mp h
  obtain ⟨ys, hy, rfl⟩ := EStateM.map_eq_ok.mp h
  obtain ⟨hm, hg, hx⟩ := addNamed_eq_ok (p := VisibleAnnotations.mk _) hp
    (annotationBytes_eq_ok hv) hx
  obtain ⟨hp', hg', hy⟩ := addNamed_eq_ok (p := InvisibleAnnotations.mk _) hm
    (annotationBytes_eq_ok hi) hy
  exact ⟨hp', hg.trans hg', xs, ys, rfl, hx.grows hg', hy⟩

theorem PoolM.addParameterAnnotations_eq_ok (hp : pool.Faithful)
    (h : addParameterAnnotations parameters pool = .ok attributes pool') :
    pool'.Faithful ∧ pool.Grows pool' ∧ StoresParameters pool' parameters attributes := by
  rw [addParameterAnnotations_eq] at h
  obtain ⟨xs, mid, hx, h⟩ := EStateM.bind_eq_ok.mp h
  obtain ⟨ys, hy, rfl⟩ := EStateM.map_eq_ok.mp h
  obtain ⟨hm, hg, hx⟩ := addUnless_eq_ok hp hx
  obtain ⟨hp', hg', hy⟩ := addUnless_eq_ok hm hy
  exact ⟨hp', hg.trans hg', xs, ys, rfl, hx.grows hg', hy⟩

/-! ### Finding annotations again -/

namespace ConstantPool

/-- The names of the attributes with annotations of the whole, and with those of parameters. -/
def annotationNames : List String :=
  [Payload.name VisibleAnnotations, Payload.name InvisibleAnnotations]

def parameterAnnotationNames : List String :=
  [Payload.name VisibleParameterAnnotations, Payload.name InvisibleParameterAnnotations]

theorem isAnnotationAttribute_iff {name : String} : isAnnotationAttribute name = true ↔
    name ∈ annotationNames ++ parameterAnnotationNames :=
  List.contains_iff_mem

theorem annotationsIn_of_apart (h : a.Apart pool annotationNames) :
    pool.annotationsIn a = .ok [] := by
  rw [annotationsIn, h.payload? (by simp [annotationNames]), Except.ok_bind,
    h.payload? (by simp [annotationNames])]
  rfl

theorem parameterAnnotationsIn_of_apart (h : a.Apart pool parameterAnnotationNames) :
    pool.parameterAnnotationsIn a = .ok [] := by
  rw [parameterAnnotationsIn, h.payload? (by simp [parameterAnnotationNames]), Except.ok_bind,
    h.payload? (by simp [parameterAnnotationNames])]
  rfl

/-- Among attributes of other names there are no annotations. -/
theorem mapM_annotationsIn_of_apart (h : ∀ a ∈ attributes, a.Apart pool annotationNames) :
    attributes.mapM pool.annotationsIn = .ok (attributes.map fun _ => []) :=
  Except.mapM_eq_ok_map fun a ha => annotationsIn_of_apart (h a ha)

theorem mapM_parameterAnnotationsIn_of_apart
    (h : ∀ a ∈ attributes, a.Apart pool parameterAnnotationNames) :
    attributes.mapM pool.parameterAnnotationsIn = .ok (attributes.map fun _ => []) :=
  Except.mapM_eq_ok_map fun a ha => parameterAnnotationsIn_of_apart (h a ha)

theorem annotationsIn_visible {p : VisibleAnnotations} (h : a.Holds pool p) :
    pool.annotationsIn a = .ok (p.annotations.map fun a => ⟨a, true⟩) := by
  rw [annotationsIn, payload?_of_yields h.name (VisibleAnnotations.yields_read h.info)]
  rfl

theorem annotationsIn_invisible {p : InvisibleAnnotations} (h : a.Holds pool p) :
    pool.annotationsIn a = .ok (p.annotations.map fun a => ⟨a, false⟩) := by
  have hv : pool.payload? VisibleAnnotations a = .ok none := payload?_of_ne h.name (by decide)
  rw [annotationsIn, hv, Except.ok_bind,
    payload?_of_yields h.name (InvisibleAnnotations.yields_read h.info)]
  rfl

theorem parameterAnnotationsIn_visible {p : VisibleParameterAnnotations} (h : a.Holds pool p) :
    pool.parameterAnnotationsIn a =
      .ok (p.parameters.map fun annotations => annotations.map fun a => ⟨a, true⟩) := by
  rw [parameterAnnotationsIn,
    payload?_of_yields h.name (VisibleParameterAnnotations.yields_read h.info)]
  rfl

theorem parameterAnnotationsIn_invisible {p : InvisibleParameterAnnotations}
    (h : a.Holds pool p) : pool.parameterAnnotationsIn a =
      .ok (p.parameters.map fun annotations => annotations.map fun a => ⟨a, false⟩) := by
  have hv : pool.payload? VisibleParameterAnnotations a = .ok none :=
    payload?_of_ne h.name (by decide)
  rw [parameterAnnotationsIn, hv, Except.ok_bind,
    payload?_of_yields h.name (InvisibleParameterAnnotations.yields_read h.info)]
  rfl

end ConstantPool

namespace StoresAnnotations

theorem named (h : StoresAnnotations pool uses attributes) :
    ∀ a ∈ attributes, a.Named pool annotationNames := by
  obtain ⟨xs, ys, rfl, hx, hy⟩ := h
  intro a ha
  rcases List.mem_append.mp ha with ha | ha
  · exact ⟨_, by simp [annotationNames], hx.name ha⟩
  · exact ⟨_, by simp [annotationNames], hy.name ha⟩

theorem mapM_annotationsIn (h : StoresAnnotations pool uses attributes) :
    ∃ found, attributes.mapM pool.annotationsIn = .ok found ∧
      found.flatten = byVisibility uses := by
  obtain ⟨xs, ys, rfl, hx, hy⟩ := h
  have hx := hx.mapM_eq fun _ ha => annotationsIn_visible ha
  have hy := hy.mapM_eq fun _ ha => annotationsIn_invisible ha
  refine ⟨_, Except.mapM_append hx hy, ?_⟩
  rw [annotationsOf_map, annotationsOf_map, byVisibility, List.flatten_append]
  simp only [← annotationsOf_map]
  cases annotationsOf true uses <;> cases annotationsOf false uses <;> simp

end StoresAnnotations

namespace StoresParameters

theorem named (h : StoresParameters pool parameters attributes) :
    ∀ a ∈ attributes, a.Named pool parameterAnnotationNames := by
  obtain ⟨xs, ys, rfl, hx, hy⟩ := h
  intro a ha
  rcases List.mem_append.mp ha with ha | ha
  · exact ⟨_, by simp [parameterAnnotationNames], hx.name ha⟩
  · exact ⟨_, by simp [parameterAnnotationNames], hy.name ha⟩

theorem mapM_parameterAnnotationsIn (h : StoresParameters pool parameters attributes) :
    ∃ found, attributes.mapM pool.parameterAnnotationsIn = .ok found ∧
      found.foldl mergeParameters [] = parametersByVisibility parameters := by
  obtain ⟨xs, ys, rfl, hx, hy⟩ := h
  have hx := hx.mapM_eq fun _ ha => parameterAnnotationsIn_visible ha
  have hy := hy.mapM_eq fun _ ha => parameterAnnotationsIn_invisible ha
  refine ⟨_, Except.mapM_append hx hy, ?_⟩
  rw [parametersByVisibility, ← all_isEmpty_annotationsOf]
  simp only [List.map_map, Function.comp_def, annotationsOf_map]
  cases hv : (parameters.map (annotationsOf true)).all List.isEmpty with
  | true =>
    cases hi : (parameters.map (annotationsOf false)).all List.isEmpty with
    | true => rfl
    | false =>
      refine List.map_congr_left fun uses hu => ?_
      rw [byVisibility, filter_eq_nil_of_all hv hu]
      rfl
  | false =>
    cases hi : (parameters.map (annotationsOf false)).all List.isEmpty with
    | true =>
      refine List.map_congr_left fun uses hu => ?_
      rw [byVisibility, filter_eq_nil_of_all hi hu, List.append_nil]
    | false => exact mergeParameters_map _ _

end StoresParameters

namespace ConstantPool

variable {others more : List Attribute}

/-- Stored annotations are found among other attributes, if they fit the pool. -/
theorem annotations_eq (ho : ∀ a ∈ others, a.Apart pool annotationNames)
    (hs : StoresAnnotations pool uses attributes)
    (hm : ∀ a ∈ more, a.Apart pool annotationNames) (hc : ∀ u ∈ uses, u.check pool = .ok ()) :
    pool.annotations (others ++ attributes ++ more) = .ok (byVisibility uses) := by
  obtain ⟨found, hf, hu⟩ := hs.mapM_annotationsIn
  have hl := Except.mapM_append (Except.mapM_append (mapM_annotationsIn_of_apart ho) hf)
    (mapM_annotationsIn_of_apart hm)
  have hfl : ((others.map fun _ => []) ++ found ++ more.map fun _ => []).flatten =
      byVisibility uses := by
    simp [hu]
  have hck : (byVisibility uses).forM (fun u => u.check pool) = .ok () :=
    Except.forM_eq_ok.mpr fun u hm => hc u (mem_byVisibility.mp hm)
  rw [annotations, hl, Except.ok_bind, hfl]
  exact Except.bind_eq_ok.mpr ⟨(), hck, rfl⟩

theorem check_of_annotations (h : pool.annotations attributes = .ok uses) :
    ∀ u ∈ uses, u.check pool = .ok () := by
  obtain ⟨found, -, h⟩ := Except.bind_eq_ok.mp h
  obtain ⟨_, hc, h⟩ := Except.bind_eq_ok.mp h
  cases h
  exact Except.forM_eq_ok.mp hc

theorem check_of_parameterAnnotations
    (h : pool.parameterAnnotations attributes = .ok parameters) :
    ∀ u ∈ parameters.flatten, u.check pool = .ok () := by
  obtain ⟨found, -, h⟩ := Except.bind_eq_ok.mp h
  obtain ⟨_, hc, h⟩ := Except.bind_eq_ok.mp h
  cases h
  exact Except.forM_eq_ok.mp hc

theorem mem_parametersByVisibility {u : AnnotationUse}
    (h : u ∈ (parametersByVisibility parameters).flatten) : u ∈ parameters.flatten := by
  unfold parametersByVisibility at h
  split at h
  · cases h
  · obtain ⟨_, hl, hu⟩ := List.mem_flatten.mp h
    obtain ⟨uses, hp, rfl⟩ := List.mem_map.mp hl
    exact List.mem_flatten.mpr ⟨uses, hp, mem_byVisibility.mp hu⟩

/-- Stored annotations of parameters are found behind other attributes. -/
theorem parameterAnnotations_eq (ho : ∀ a ∈ others, a.Apart pool parameterAnnotationNames)
    (hs : StoresParameters pool parameters attributes)
    (hc : ∀ u ∈ parameters.flatten, u.check pool = .ok ()) :
    pool.parameterAnnotations (others ++ attributes) =
      .ok (parametersByVisibility parameters) := by
  obtain ⟨found, hf, hu⟩ := hs.mapM_parameterAnnotationsIn
  have hl := Except.mapM_append (mapM_parameterAnnotationsIn_of_apart ho) hf
  have hfl : ((others.map fun _ => []) ++ found).foldl mergeParameters [] =
      parametersByVisibility parameters := by
    have hn : (others.map fun _ => []).foldl mergeParameters [] = [] :=
      foldl_mergeParameters_nil (by simp)
    rw [List.foldl_append, hn, hu]
  have hck : (parametersByVisibility parameters).flatten.forM (fun u => u.check pool) = .ok () :=
    Except.forM_eq_ok.mpr fun u hm => hc u (mem_parametersByVisibility hm)
  rw [parameterAnnotations, hl, Except.ok_bind, hfl]
  exact Except.bind_eq_ok.mpr ⟨(), hck, rfl⟩

end ConstantPool

end Classfile
