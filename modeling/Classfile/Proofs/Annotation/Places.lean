import Classfile.Proofs.Annotation.Entries
import Classfile.Proofs.Attribute.Codec

/-!
What becomes of the annotations of parameters when they are stored. Each visibility that occurs has
one attribute, with a place for every parameter. What is found again at a place is what was stored
there, visible ones first, so no annotation moves to another parameter.
-/
namespace Classfile

open ConstantPool

variable {α : Type} {pool pool' : ConstantPool} {parameters : List (List AnnotationUse)}
  {attributes : List Attribute} {a : Attribute} {visible : Bool}

/-- The number of places is what the first byte says. -/
theorem count_of_writeParameterAnnotations {places : List (List Annotation)} {bytes : List UInt8}
    (h : writeParameterAnnotations places = .ok bytes) :
    places.length ≤ 255 ∧ BigEndian.unpack (bytes.take 1) = places.length := by
  unfold writeParameterAnnotations at h
  split at h
  · cases h
  · rename_i hl
    obtain ⟨body, -, h⟩ := Except.bind_eq_ok.mp h
    cases h
    refine ⟨Nat.le_of_not_lt hl, ?_⟩
    rw [List.take_left' (BigEndian.length_pack 1 places.length), BigEndian.unpack_pack]
    exact Nat.mod_eq_of_lt (Nat.lt_succ_of_le (Nat.le_of_not_lt hl))

/-- No parameter has annotations of a visibility just if none of them all has it. -/
theorem all_isEmpty_annotationsOf_eq (visible : Bool) :
    (parameters.map (annotationsOf visible)).all List.isEmpty =
      !parameters.flatten.any fun u => u.visible = visible := by
  rw [List.all_map, List.any_flatten, List.not_any_eq_all_not]
  exact congrArg parameters.all (funext fun uses => isEmpty_annotationsOf_eq visible)

namespace ConstantPool

/-- The attribute for a visibility: its name, the number of parameters in its first byte, and at the
place of each parameter its annotations of that visibility, in their order. -/
structure HoldsPlaces (pool : ConstantPool) (parameters : List (List AnnotationUse))
    (visible : Bool) (a : Attribute) : Prop where
  name : pool.attributeName a = .ok (parameterAnnotationName visible)
  count : parameters.length ≤ 255 ∧ BigEndian.unpack (a.info.take 1) = parameters.length
  places : pool.parameterAnnotationsIn a =
    .ok (parameters.map fun uses => uses.filter fun u => u.visible = visible)

theorem holdsPlaces_visible
    (h : a.Holds pool (VisibleParameterAnnotations.mk (parameters.map (annotationsOf true)))) :
    pool.HoldsPlaces parameters true a where
  name := h.name
  count := by simpa using count_of_writeParameterAnnotations h.info
  places := by simp [parameterAnnotationsIn_visible h, annotationsOf_map]

theorem holdsPlaces_invisible
    (h : a.Holds pool (InvisibleParameterAnnotations.mk (parameters.map (annotationsOf false)))) :
    pool.HoldsPlaces parameters false a where
  name := h.name
  count := by simpa using count_of_writeParameterAnnotations h.info
  places := by simp [parameterAnnotationsIn_invisible h, annotationsOf_map]

/-- An attribute that is there unless nothing occurs, as the list of those that occur. -/
theorem forall₂_of_holdsUnless [Payload α] {p : α} {R : Bool → Attribute → Prop} {occurs : Bool}
    (h : Attribute.HoldsUnless pool (!occurs) p attributes)
    (hr : ∀ a, a.Holds pool p → R visible a) :
    List.Forall₂ R (bif occurs then [visible] else []) attributes := by
  cases occurs with
  | false =>
    cases h
    exact .nil
  | true =>
    obtain ⟨a, rfl, ha⟩ := h
    exact .cons (hr a ha) .nil

theorem forall₂_of_stores (h : StoresParameters pool parameters attributes) :
    List.Forall₂ (pool.HoldsPlaces parameters) (occurring parameters.flatten) attributes := by
  obtain ⟨xs, ys, rfl, hx, hy⟩ := h
  rw [all_isEmpty_annotationsOf_eq] at hx hy
  rw [occurring_eq]
  exact List.rel_append (forall₂_of_holdsUnless hx fun _ => holdsPlaces_visible)
    (forall₂_of_holdsUnless hy fun _ => holdsPlaces_invisible)

/-- Among attributes that have names one by one, a name is found just if it is one of these. -/
theorem exists_attributeName_iff {names : List String} {name : String}
    (h : List.Forall₂ (fun name a => pool.attributeName a = .ok name) names attributes) :
    (∃ a ∈ attributes, pool.attributeName a = .ok name) ↔ name ∈ names := by
  induction h with
  | nil => simp
  | cons ha _ ih =>
    rw [List.exists_mem_cons_iff, ha, ih, List.mem_cons, Except.ok.injEq, eq_comm]

theorem parameterAnnotationName_injective : Function.Injective parameterAnnotationName := by
  unfold Function.Injective
  decide

/-- What is so after the annotations of parameters were stored in a pool. -/
structure KeepsPlaces (pool : ConstantPool) (parameters : List (List AnnotationUse))
    (attributes : List Attribute) : Prop where
  held : List.Forall₂ (pool.HoldsPlaces parameters) (occurring parameters.flatten) attributes
  emitted : ∀ visible,
    (∃ a ∈ attributes, pool.attributeName a = .ok (parameterAnnotationName visible)) ↔
      ∃ uses ∈ parameters, ∃ u ∈ uses, u.visible = visible
  none_found : (∀ uses ∈ parameters, uses = []) → pool.parameterAnnotations attributes = .ok []
  found : (∃ uses ∈ parameters, uses ≠ []) →
    pool.parameterAnnotations attributes = .ok (parameters.map byVisibility)

theorem keepsPlaces_of_stores (h : StoresParameters pool parameters attributes)
    (hc : ∀ uses ∈ parameters, ∀ u ∈ uses, u.check pool = .ok ()) :
    pool.KeepsPlaces parameters attributes := by
  have hheld := forall₂_of_stores h
  have hfound : pool.parameterAnnotations attributes =
      .ok (parametersByVisibility parameters) := by
    rw [← List.nil_append attributes]
    refine parameterAnnotations_eq nofun h fun u hu => ?_
    obtain ⟨uses, hm, hu⟩ := List.mem_flatten.mp hu
    exact hc uses hm u hu
  refine ⟨hheld, fun visible => ?_, fun hnone => ?_, fun ⟨uses, hm, hne⟩ => ?_⟩
  · have hnames : List.Forall₂ (fun name a => pool.attributeName a = .ok name)
        ((occurring parameters.flatten).map parameterAnnotationName) attributes :=
      List.forall₂_map_left_iff.mpr (hheld.imp fun _ _ ha => ha.name)
    rw [exists_attributeName_iff hnames,
      List.mem_map_of_injective parameterAnnotationName_injective, mem_occurring]
    simp only [List.mem_flatten]
    exact ⟨fun ⟨u, ⟨uses, hm, hu⟩, hv⟩ => ⟨uses, hm, u, hu, hv⟩,
      fun ⟨uses, hm, u, hu, hv⟩ => ⟨u, ⟨uses, hm, hu⟩, hv⟩⟩
  · rw [hfound, parametersByVisibility, if_pos]
    exact List.all_eq_true.mpr fun uses hm => List.isEmpty_iff.mpr (hnone uses hm)
  · rw [hfound, parametersByVisibility, if_neg]
    exact fun hall => hne (List.isEmpty_iff.mp (List.all_eq_true.mp hall uses hm))

end ConstantPool

namespace PoolM

theorem addUnless_of_room [Payload α] {p : α} {info : List UInt8} (skip : Bool)
    (h : pool.extent < capacity) (hw : Payload.write p = .ok info) :
    ∃ attributes pool', addUnless skip p pool = .ok attributes pool' ∧
      pool'.extent ≤ pool.extent + 1 := by
  cases skip with
  | true => exact ⟨[], pool, rfl, Nat.le_succ _⟩
  | false =>
    obtain ⟨a, pool', ha, hx⟩ := addAttribute_of_room h hw
    exact ⟨[a], pool', EStateM.map_eq_ok.mpr ⟨a, ha, rfl⟩, hx⟩

/-- Where all counts have room, the annotations of one visibility can be written. -/
theorem exists_writeParameterAnnotations (hl : parameters.length ≤ 255)
    (hb : ∀ uses ∈ parameters, uses.length ≤ 65535 ∧ ∀ u ∈ uses, u.body.Bounded)
    (visible : Bool) :
    ∃ info, writeParameterAnnotations (parameters.map (annotationsOf visible)) = .ok info := by
  refine codec_parameterAnnotations.writes _ ⟨by rwa [List.length_map], ?_⟩
  rw [List.forall_mem_map]
  intro uses hm
  obtain ⟨hc, hu⟩ := hb uses hm
  refine ⟨?_, fun body hbody => ?_⟩
  · exact Nat.le_trans (length_annotationsOf_le visible) hc
  · obtain ⟨u, hf, rfl⟩ := List.mem_map.mp hbody
    exact hu u (List.mem_filter.mp hf).1

theorem exists_addParameterAnnotations (hl : parameters.length ≤ 255)
    (hb : ∀ uses ∈ parameters, uses.length ≤ 65535 ∧ ∀ u ∈ uses, u.body.Bounded)
    (hx : pool.extent + 2 ≤ capacity) :
    ∃ attributes pool', addParameterAnnotations parameters pool = .ok attributes pool' := by
  obtain ⟨_, hv⟩ := exists_writeParameterAnnotations hl hb true
  obtain ⟨_, hi⟩ := exists_writeParameterAnnotations hl hb false
  have hfirst : pool.extent < capacity := by omega
  obtain ⟨xs, mid, hxs, hm⟩ := addUnless_of_room (p := VisibleParameterAnnotations.mk _)
    ((parameters.map (annotationsOf true)).all List.isEmpty) hfirst hv
  have hsecond : mid.extent < capacity := by omega
  obtain ⟨ys, pool', hys, -⟩ := addUnless_of_room (p := InvisibleParameterAnnotations.mk _)
    ((parameters.map (annotationsOf false)).all List.isEmpty) hsecond hi
  refine ⟨xs ++ ys, pool', ?_⟩
  rw [addParameterAnnotations_eq]
  exact EStateM.bind_eq_ok.mpr ⟨xs, mid, hxs, EStateM.map_eq_ok.mpr ⟨ys, hys, rfl⟩⟩

end PoolM

namespace ConstantPool

/-- Annotations of parameters that fit the pool are found again at their parameters after they were
stored, visible ones first, in one attribute for each visibility that occurs. If no parameter has
any there is no attribute, and nothing is found. They are stored whenever all their counts have
room, and the names of the attributes have. -/
theorem addParameterAnnotations_places (hp : pool.Obtained)
    (hc : ∀ uses ∈ parameters, ∀ u ∈ uses, u.check pool = .ok ()) :
    (∀ attributes pool', PoolM.addParameterAnnotations parameters pool = .ok attributes pool' →
      pool'.KeepsPlaces parameters attributes) ∧
    (parameters.length ≤ 255 →
      (∀ uses ∈ parameters, uses.length ≤ 65535 ∧ ∀ u ∈ uses, u.body.Bounded) →
      pool.extent + 2 ≤ capacity →
        ∃ attributes pool', PoolM.addParameterAnnotations parameters pool =
          .ok attributes pool') := by
  refine ⟨fun attributes pool' h => ?_, PoolM.exists_addParameterAnnotations⟩
  obtain ⟨-, hg, hs⟩ := PoolM.addParameterAnnotations_eq_ok hp.faithful h
  exact keepsPlaces_of_stores hs fun uses hm u hu => AnnotationUse.check_grows hg (hc uses hm u hu)

/-- Four parameters, of which the first and the last have no annotations. -/
def mixedParameters : List (List AnnotationUse) :=
  [[], [⟨⟨⟨1⟩, []⟩, false⟩, ⟨⟨⟨2⟩, []⟩, true⟩, ⟨⟨⟨2⟩, [(⟨1⟩, .array [.string ⟨2⟩])]⟩, false⟩],
    [⟨⟨⟨1⟩, []⟩, true⟩], []]

/-- Two attributes hold them, and each parameter gets its own back. -/
theorem addParameterAnnotations_places_mixed : ∃ pool attributes pool',
    ofTable (WidthTable.ofList 1 [.utf8 "LA;", .utf8 "LB;"]) = .ok pool ∧
    PoolM.addParameterAnnotations mixedParameters pool = .ok attributes pool' ∧
    attributes.length = 2 ∧ pool'.parameterAnnotations attributes =
      .ok [[], [⟨⟨⟨2⟩, []⟩, true⟩, ⟨⟨⟨1⟩, []⟩, false⟩,
        ⟨⟨⟨2⟩, [(⟨1⟩, .array [.string ⟨2⟩])]⟩, false⟩], [⟨⟨⟨1⟩, []⟩, true⟩], []] := by
  obtain ⟨pool, hs⟩ : ∃ pool,
    ofTable (WidthTable.ofList 1 [.utf8 "LA;", .utf8 "LB;"]) = .ok pool := ⟨_, rfl⟩
  obtain ⟨hx, hc⟩ : pool.extent = 3 ∧
      ∀ uses ∈ mixedParameters, ∀ u ∈ uses, u.check pool = .ok () := by
    obtain ⟨-, rfl, -⟩ := ofTable_eq_ok hs
    refine ⟨rfl, ?_⟩
    simp only [mixedParameters, List.forall_mem_cons]
    exact ⟨nofun, ⟨rfl, rfl, rfl, nofun⟩, ⟨rfl, nofun⟩, nofun, nofun⟩
  have hb : ∀ uses ∈ mixedParameters, uses.length ≤ 65535 ∧ ∀ u ∈ uses, u.body.Bounded := by
    simp only [mixedParameters, List.forall_mem_cons]
    have hnone : ∀ i, ( Annotation.mk i []).Bounded := fun _ => ⟨Nat.zero_le _, nofun⟩
    have harray : ( Annotation.mk ⟨2⟩ [(⟨1⟩, .array [.string ⟨2⟩])]).Bounded :=
      ⟨by decide, List.forall_mem_singleton.mpr
        (.array (by decide) (List.forall_mem_singleton.mpr .string))⟩
    exact ⟨⟨by decide, nofun⟩, ⟨by decide, hnone _, hnone _, harray, nofun⟩,
      ⟨by decide, hnone _, nofun⟩, ⟨by decide, nofun⟩, nofun⟩
  obtain ⟨hkeeps, hstored⟩ := addParameterAnnotations_places (.ofTable hs) hc
  obtain ⟨attributes, pool', ha⟩ := hstored (by decide) hb (by rw [hx]; decide)
  have h := hkeeps attributes pool' ha
  refine ⟨pool, attributes, pool', hs, ha, h.held.length_eq.symm, ?_⟩
  exact h.found ⟨_, List.mem_cons_of_mem _ List.mem_cons_self, List.cons_ne_nil _ _⟩

end ConstantPool

end Classfile
