import Classfile.Proofs.Draft.NormalForm

/-!
Attributes whose contents a draft does not have. It keeps them as they are, and when it is stored
they stand in their order among the attributes that are made then. A method keeps all of them. A
class and a field do not: they have no annotations of parameters, yet leave out the attributes of
these.
-/
namespace Classfile

open ConstantPool

variable {pool mid pool' : ConstantPool} {names taken decoded : List String} {a : Attribute}
  {attributes kept before after : List Attribute}

namespace ConstantPool

/-- The attribute has none of the names, perhaps because its name cannot be read. -/
def spares (pool : ConstantPool) (names : List String) (a : Attribute) : Bool :=
  match pool.attributeName a with
  | .ok name => !names.contains name
  | .error _ => true

theorem spares_of_apart (h : a.Apart pool names) : pool.spares names a = true := by
  obtain ⟨name, hname, hn⟩ := h
  simpa [spares, hname] using hn

theorem spares_of_named (h : a.Named pool names) : pool.spares names a = false := by
  obtain ⟨name, hn, hname⟩ := h
  simpa [spares, hname] using hn

/-- The attributes `before` have become the attributes `after`, and the pool has grown. Those that
now have none of the decoded names are those that had none of the names that are taken out: the same
ones, in the same order. -/
structure KeepsOthers (taken decoded : List String) (pool : ConstantPool) (before : List Attribute)
    (pool' : ConstantPool) (after : List Attribute) : Prop where
  grows : pool.Grows pool'
  others : after.filter (pool'.spares decoded) = before.filter (pool.spares taken)

/-- The kept attributes with others around them, which have some of the names. -/
def Surrounds (pool : ConstantPool) (names : List String) (kept attributes : List Attribute) :
    Prop :=
  ∃ front back, (∀ a ∈ front ++ back, a.Named pool names) ∧ attributes = front ++ kept ++ back

theorem Surrounds.filter (h : pool.Surrounds names kept attributes)
    (hk : ∀ a ∈ kept, a.Apart pool names) : attributes.filter (pool.spares names) = kept := by
  obtain ⟨front, back, hn, rfl⟩ := h
  have hnone : ∀ {xs : List Attribute}, (∀ a ∈ xs, a.Named pool names) →
      xs.filter (pool.spares names) = [] := fun hx =>
    List.filter_eq_nil_iff.mpr fun a ha => Bool.eq_false_iff.mp (spares_of_named (hx a ha))
  rw [List.filter_append, List.filter_append, hnone fun a ha => hn a (List.mem_append_left _ ha),
    hnone fun a ha => hn a (List.mem_append_right _ ha), List.nil_append, List.append_nil]
  exact List.filter_eq_self.mpr fun a ha => spares_of_apart (hk a ha)

/-- What was kept of some attributes is found again among those that were stored around it. -/
theorem keepsOthers_of_surrounds (hg : pool.Grows pool') (hd : ∀ name ∈ decoded, name ∈ taken)
    (hs : pool'.Surrounds decoded kept after) (hk : ∀ a ∈ kept, a.Apart pool taken)
    (hb : kept = before.filter (pool.spares taken)) :
    KeepsOthers taken decoded pool before pool' after := by
  refine ⟨hg, ?_⟩
  rw [hs.filter fun a ha => ((hk a ha).mono hd).grows hg, hb]

end ConstantPool

/-! ### Fields -/

namespace FieldDraft

variable {d e : FieldDraft} {f r : Field}

/-- The names of the attributes whose contents a field has. -/
def decodedNames : List String := Payload.name ConstantValue :: annotationNames

theorem attributes_absorb (h : absorb pool d a = .ok e) :
    e.attributes = d.attributes ++ [a].filter (pool.spares modelledNames) := by
  rcases absorb_eq_ok h with ⟨p, hp, hs⟩ | ⟨hn, rfl⟩ | ⟨ha, rfl⟩
  · obtain ⟨-, rfl⟩ := setInitialValue_eq_ok.mp hs
    have hn : a.Named pool modelledNames := ⟨_, List.mem_cons_self, (payload?_eq_some hp).1⟩
    simp [spares_of_named hn]
  · simp [spares_of_named hn]
  · simp [spares_of_apart ha]

theorem attributes_ofField (h : ofField pool f = .ok d) :
    d.attributes = f.attributes.filter (pool.spares modelledNames) := by
  obtain ⟨name, descriptor, base, e, annotations, -, -, hb, he, -, rfl⟩ := ofField_eq_ok h
  obtain ⟨type, -, rfl⟩ := Except.map_eq_ok.mp hb
  exact Except.foldlM_filter attributes_absorb he

theorem surrounds_build (hp : pool.Faithful) (h : d.build pool = .ok r pool') :
    pool.Grows pool' ∧ pool'.Surrounds decodedNames d.attributes r.attributes := by
  obtain ⟨-, hg, hs⟩ := stores_of_build hp h
  obtain ⟨initial, annotations, hi, ha, hr⟩ := hs.attributes
  refine ⟨hg, initial, annotations, fun a hm => ?_, hr⟩
  rcases List.mem_append.mp hm with hm | hm
  · exact ⟨_, List.mem_cons_self, hi.name hm⟩
  · exact (ha.named a hm).mono fun _ => List.mem_cons_of_mem _

theorem keepsOthers_build (hm : mid.Faithful) (hg : pool.Grows mid) (hd : ofField pool f = .ok d)
    (h : d.build mid = .ok r pool') :
    KeepsOthers modelledNames decodedNames pool f.attributes pool' r.attributes := by
  obtain ⟨hg', hs⟩ := surrounds_build hm h
  exact keepsOthers_of_surrounds (hg.trans hg') (fun _ => List.mem_append_left _) hs
    (valid_ofField hd).1.attributes (attributes_ofField hd)

end FieldDraft

/-! ### Methods -/

namespace MethodDraft

variable {d e : MethodDraft} {m r : Method} {owner : String} {body : CodeBody}

theorem attributes_absorbCode {code : DecodedCode} {length : Nat}
    (h : absorbCode pool code length d a = .ok e) : e.attributes = d.attributes := by
  rcases absorbCode_eq_ok h with ⟨p, lines, -, -, rfl⟩ | ⟨p, scopes, -, -, rfl⟩ |
    ⟨p, scopes, -, -, rfl⟩ | ⟨-, rfl⟩ <;> rfl

theorem attributes_wrapCode (h : d.wrapCode pool body = .ok e) :
    e.attributes = d.attributes := by
  obtain ⟨code, -, h⟩ := Except.bind_eq_ok.mp h
  obtain ⟨handlers, -, h⟩ := Except.bind_eq_ok.mp h
  refine Except.foldlM_invariant (P := fun e => e.attributes = d.attributes) rfl ?_ h
  exact fun _ hf _ _ _ hg => (attributes_absorbCode hg).trans hf

theorem attributes_absorb (h : absorb pool d a = .ok e) :
    e.attributes = d.attributes ++ [a].filter (pool.spares modelledNames) := by
  rcases absorb_eq_ok h with ⟨body, hb, hw⟩ | ⟨p, types, hp, -, rfl⟩ | ⟨hn, rfl⟩ | ⟨ha, rfl⟩
  · have hn : a.Named pool modelledNames := ⟨_, by simp [modelledNames], (payload?_eq_some hb).1⟩
    simp [spares_of_named hn, attributes_wrapCode hw]
  · have hn : a.Named pool modelledNames := ⟨_, by simp [modelledNames], (payload?_eq_some hp).1⟩
    simp [spares_of_named hn]
  · simp [spares_of_named hn]
  · simp [spares_of_apart ha]

theorem attributes_ofMethod (h : ofMethod pool owner m = .ok d) :
    d.attributes = m.attributes.filter (pool.spares modelledNames) := by
  obtain ⟨name, descriptor, base, e, annotations, parameters, -, -, hb, he, -, -, rfl⟩ :=
    ofMethod_eq_ok h
  obtain ⟨parsed, -, rfl⟩ := Except.map_eq_ok.mp hb
  exact Except.foldlM_filter attributes_absorb he

theorem surrounds_build (hp : pool.Faithful) (h : d.build pool = .ok r pool') :
    pool.Grows pool' ∧ pool'.Surrounds modelledNames d.attributes r.attributes := by
  obtain ⟨-, hg, hs⟩ := stores_of_build hp h
  obtain ⟨code, exceptions, annotations, parameters, hc, he, ha, hq, hr⟩ := hs.attributes
  refine ⟨hg, code ++ exceptions, annotations ++ parameters, ?_, by simp [hr]⟩
  simp only [List.mem_append]
  rintro a ((hm | hm) | hm | hm)
  · exact ⟨_, by simp [modelledNames], hc.name hm⟩
  · exact ⟨_, by simp [modelledNames], he.name hm⟩
  · exact (ha.named a hm).mono fun _ h => List.mem_append_right _ (List.mem_append_left _ h)
  · exact (hq.named a hm).mono fun _ h => List.mem_append_right _ (List.mem_append_right _ h)

theorem keepsOthers_build (hm : mid.Faithful) (hg : pool.Grows mid)
    (hd : ofMethod pool owner m = .ok d) (h : d.build mid = .ok r pool') :
    KeepsOthers modelledNames modelledNames pool m.attributes pool' r.attributes := by
  obtain ⟨hg', hs⟩ := surrounds_build hm h
  exact keepsOthers_of_surrounds (hg.trans hg') (fun _ => id) hs (valid_ofMethod hd).1.attributes
    (attributes_ofMethod hd)

end MethodDraft

/-! ### Classes -/

namespace ClassDraft

variable {d : ClassDraft} {c r : ClassImage}

theorem attributes_ofImage (hs : d.Shows c) : d.attributes =
    c.attributes.filter (d.pool.spares (annotationNames ++ parameterAnnotationNames)) := by
  obtain ⟨names, hn⟩ := hs.names
  rw [hs.attributes]
  refine List.filter_congr fun a ha => ?_
  obtain ⟨name, hname⟩ := Except.exists_of_mapM hn ha
  have hm : isAnnotationAttribute name =
      (annotationNames ++ parameterAnnotationNames).contains name := by
    rw [Bool.eq_iff_iff, isAnnotationAttribute_iff, List.contains_iff_mem]
  simp only [keeps, spares, hname, hm]

/-- The names of all annotations are in the pool already, which therefore stays as it is. -/
theorem keepsOthers_build (hm : mid.Faithful) (hg : d.pool.Grows mid) (hd : ofImage c = .ok d)
    (h : ({ d with pool := mid } : ClassDraft).build = .ok r) : r.constants = mid.table ∧
      KeepsOthers (annotationNames ++ parameterAnnotationNames) annotationNames
        d.pool c.attributes mid r.attributes := by
  have hs := ofImage_eq_ok.mp hd
  obtain ⟨stored, pool, ha, rfl⟩ := build_eq_ok.mp h
  have hheld : ∀ u ∈ d.annotations, mid.Held (annotationName u.visible) := fun u hu =>
    (held_of_annotations hs.annotations u hu).grows hg
  cases PoolM.keeps_addAnnotations hm hheld ha
  obtain ⟨-, -, hstored⟩ := PoolM.addAnnotations_eq_ok hm ha
  have hkept : ∀ a ∈ d.attributes,
      a.Apart d.pool (annotationNames ++ parameterAnnotationNames) := by
    intro a hkeep
    rw [hs.attributes] at hkeep
    exact keeps_iff.mp (List.mem_filter.mp hkeep).2
  exact ⟨rfl, keepsOthers_of_surrounds hg (fun _ => List.mem_append_left _)
    ⟨[], stored, hstored.named, rfl⟩ hkept (attributes_ofImage hs)⟩

end ClassDraft

/-- What is left of attributes when a class, a field or a method has become a draft, and this was
stored in a pool that has grown from the one it was made with. Those that are not decoded stay,
unchanged and in their order. On a class and on a field those for annotations of parameters do not,
although they are not decoded there. -/
theorem others_rebuilt {mid : ConstantPool} (hm : mid.Obtained) :
    (∀ {c r : ClassImage} {d : ClassDraft}, d.pool.Grows mid → ClassDraft.ofImage c = .ok d →
      ({ d with pool := mid } : ClassDraft).build = .ok r → r.constants = mid.table ∧
        KeepsOthers (annotationNames ++ parameterAnnotationNames) annotationNames
          d.pool c.attributes mid r.attributes) ∧
    (∀ {pool pool' : ConstantPool} {f r : Field} {d : FieldDraft}, pool.Grows mid →
      FieldDraft.ofField pool f = .ok d → d.build mid = .ok r pool' →
        KeepsOthers FieldDraft.modelledNames FieldDraft.decodedNames
          pool f.attributes pool' r.attributes) ∧
    ∀ {pool pool' : ConstantPool} {owner : String} {m r : Method} {d : MethodDraft},
      pool.Grows mid → MethodDraft.ofMethod pool owner m = .ok d → d.build mid = .ok r pool' →
        KeepsOthers MethodDraft.modelledNames MethodDraft.modelledNames
          pool m.attributes pool' r.attributes :=
  ⟨ClassDraft.keepsOthers_build hm.faithful, FieldDraft.keepsOthers_build hm.faithful,
    MethodDraft.keepsOthers_build hm.faithful⟩

namespace ClassImage

/-- A class that has annotations of parameters, and another attribute before them. -/
def misplaced : ClassImage :=
  { counter with
    constants := WidthTable.ofList 1 [.utf8 "Counter", .typeName ⟨1⟩, .utf8 "J", .utf8 "()J",
      .utf8 "Deprecated", .utf8 "RuntimeVisibleParameterAnnotations"]
    fields := []
    attributes := [⟨⟨5⟩, []⟩, ⟨⟨6⟩, [0]⟩] }

def misplacedDraft : ClassDraft :=
  { version := misplaced.version, flags := misplaced.flags
    pool := ⟨misplaced.constants, misplaced.constants.toList.foldl remember ∅⟩
    thisClass := ⟨2⟩, superClass := none, interfaces := [], fields := [], methods := []
    annotations := [], attributes := [⟨⟨5⟩, []⟩] }

theorem ofImage_misplaced : ClassDraft.ofImage misplaced = .ok misplacedDraft := rfl

theorem obtained_misplaced : misplacedDraft.pool.Obtained :=
  .ofTable (ClassDraft.ofImage_eq_ok.mp ofImage_misplaced).pool

theorem build_misplaced :
    misplacedDraft.build = .ok { misplaced with attributes := [⟨⟨5⟩, []⟩] } :=
  ClassDraft.build_eq_ok.mpr ⟨[], misplacedDraft.pool, rfl, rfl⟩

/-- The class loses annotations of parameters that it had, which no table of its draft holds. -/
theorem misplaced_lost : ∃ d r, ClassDraft.ofImage misplaced = .ok d ∧ d.build = .ok r ∧
    misplaced.attributes.filter (d.pool.spares annotationNames) = [⟨⟨5⟩, []⟩, ⟨⟨6⟩, [0]⟩] ∧
    r.attributes.filter (d.pool.spares annotationNames) = [⟨⟨5⟩, []⟩] ∧ d.annotations = [] :=
  ⟨misplacedDraft, _, ofImage_misplaced, build_misplaced, rfl, rfl, rfl⟩

/-- A field and a method with the attributes of that class, both without any contents. -/
def misplacedField : FieldDraft :=
  { flags := .ofBits .field 0x0019, name := "Counter", type := .base .long, initialValue := none
    annotations := [], attributes := [⟨⟨5⟩, []⟩] }

def misplacedMethod : MethodDraft :=
  { flags := .ofBits .method 0x0401, name := "Counter", descriptor := ⟨[], some (.base .long)⟩
    owner := "Counter", instructions := .empty, maxStack := 0, maxLocals := 0, handlers := []
    lines := #[], scopes := [], typeScopes := [], exceptions := [], annotations := []
    parameterAnnotations := [], attributes := [⟨⟨5⟩, []⟩], codeAttributes := [] }

theorem others_rebuilt_misplaced :
    (∃ r, misplacedDraft.build = .ok r ∧
      r.attributes.filter (misplacedDraft.pool.spares annotationNames) = [⟨⟨5⟩, []⟩]) ∧
    (∃ r pool, misplacedField.build misplacedDraft.pool = .ok r pool ∧
      r.attributes.filter (pool.spares FieldDraft.decodedNames) = [⟨⟨5⟩, []⟩]) ∧
    ∃ r pool, misplacedMethod.build misplacedDraft.pool = .ok r pool ∧
      r.attributes.filter (pool.spares MethodDraft.modelledNames) = [⟨⟨5⟩, []⟩] := by
  obtain ⟨hclass, hfield, hmethod⟩ := others_rebuilt obtained_misplaced
  have hadd : ∀ {text : String}, misplacedDraft.pool.Held text → _ :=
    PoolM.addText_of_held obtained_misplaced.faithful
  obtain ⟨i, hi⟩ := hadd (show misplacedDraft.pool.Held "Counter" from ⟨⟨1⟩, rfl⟩)
  refine ⟨⟨_, build_misplaced, ?_⟩, ?_, ?_⟩
  · exact (hclass (.refl _) ofImage_misplaced build_misplaced).2.others
  · obtain ⟨j, hj⟩ := hadd (show misplacedDraft.pool.Held "J" from ⟨⟨3⟩, rfl⟩)
    have hd : FieldDraft.ofField misplacedDraft.pool
        ⟨misplacedField.flags, ⟨1⟩, ⟨3⟩, misplaced.attributes⟩ = .ok misplacedField := rfl
    have hb : misplacedField.build misplacedDraft.pool =
        .ok ⟨misplacedField.flags, i, j, [⟨⟨5⟩, []⟩]⟩ misplacedDraft.pool := by
      rw [FieldDraft.build_eq]
      exact EStateM.bind_eq_ok.mpr ⟨i, _, hi, EStateM.bind_eq_ok.mpr ⟨j, _, hj, rfl⟩⟩
    exact ⟨_, _, hb, (hfield (.refl _) hd hb).others⟩
  · obtain ⟨j, hj⟩ := hadd (show misplacedDraft.pool.Held "()J" from ⟨⟨4⟩, rfl⟩)
    have hd : MethodDraft.ofMethod misplacedDraft.pool "Counter"
        ⟨misplacedMethod.flags, ⟨1⟩, ⟨4⟩, misplaced.attributes⟩ = .ok misplacedMethod := rfl
    have hb : misplacedMethod.build misplacedDraft.pool =
        .ok ⟨misplacedMethod.flags, i, j, [⟨⟨5⟩, []⟩]⟩ misplacedDraft.pool := by
      rw [MethodDraft.build_eq]
      exact EStateM.bind_eq_ok.mpr ⟨i, _, hi, EStateM.bind_eq_ok.mpr ⟨j, _, hj, rfl⟩⟩
    exact ⟨_, _, hb, (hmethod (.refl _) hd hb).others⟩

end ClassImage

end Classfile
