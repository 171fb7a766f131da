import Classfile.Annotation.Copy
import Classfile.Annotation.Display
import Classfile.Proofs.Annotation.Uses
import Classfile.Proofs.Pool.Refusals

/-!
Annotations that are copied into another pool. The copy has the shape of the original, and at each
of its indices lies in the other pool what lies at the index of the original in the first one,
whatever was added since. So the copy fits the other pool, and reads the same there.
-/
namespace Classfile

open ConstantPool PoolM

variable {source target target' : ConstantPool} {i j : ConstantIndex} {c : Constant} {e : Fault}

namespace ConstantPool

/-- The text at the first index in the first pool is that at the second one in the other. -/
def SameText (source target : ConstantPool) (i j : ConstantIndex) : Prop :=
  ∃ text, source.text i = .ok text ∧ target.text j = .ok text

theorem SameText.grows (h : SameText source target i j) (hg : target.Grows target') :
    SameText source target' i j := by
  obtain ⟨text, hi, hj⟩ := h
  exact ⟨text, hi, hg.text hj⟩

/-- The number at the first index in the first pool is that at the second one in the other, and is
of the kind that the type has. Floating point numbers have the same bits. -/
def SameNumber (source target : ConstantPool) (type : BaseType) (i j : ConstantIndex) : Prop :=
  ∃ c, source.require type.role i = .ok c ∧ target.require type.role j = .ok c

theorem SameNumber.grows {type : BaseType} (h : SameNumber source target type i j)
    (hg : target.Grows target') : SameNumber source target' type i j := by
  obtain ⟨c, hi, hj⟩ := h
  exact ⟨c, hi, hg.require hj⟩

/-- A constant could not be added, because the pool has no room for it. -/
def NoRoom (pool : ConstantPool) (e : Fault) : Prop :=
  ∃ c, e = .poolOverflow c pool.extent ∧ pool.lookup c = none ∧ capacity < pool.extent + c.width

end ConstantPool

/-- A number refers to no other constant. -/
theorem BaseType.references_of_accepts {type : BaseType} (h : type.role.accepts c) :
    c.references = [] := by
  cases c with
  | utf8 | integer | float | long | double => rfl
  | _ => cases type <;> cases h

namespace PoolM

variable {α β : Type} {x : PoolM α} {Q : α → ConstantPool → Prop}

/-- From this pool the computation only adds to it. What it gives is as `Q` says, and if it stops
there was no room. -/
structure Provides (target : ConstantPool) (x : PoolM α) (Q : α → ConstantPool → Prop) : Prop where
  gives : ∀ ⦃a target'⦄, x target = .ok a target' →
    target'.Faithful ∧ target.Grows target' ∧ Q a target'
  stops : ∀ ⦃e target'⦄, x target = .error e target' → target.Grows target' ∧ target'.NoRoom e

theorem Provides.bind {f : α → PoolM β} {R : β → ConstantPool → Prop} (hx : Provides target x Q)
    (hf : ∀ a mid, mid.Faithful → target.Grows mid → Q a mid → Provides mid (f a) R) :
    Provides target (x >>= f) R where
  gives b target' h := by
    obtain ⟨a, mid, ha, h⟩ := EStateM.bind_eq_ok.mp h
    obtain ⟨hm, hg, hq⟩ := hx.gives ha
    obtain ⟨hp, hg', hr⟩ := (hf a mid hm hg hq).gives h
    exact ⟨hp, hg.trans hg', hr⟩
  stops e target' h := by
    rcases EStateM.bind_eq_error.mp h with h | ⟨a, mid, ha, h⟩
    · exact hx.stops h
    · obtain ⟨hm, hg, hq⟩ := hx.gives ha
      obtain ⟨hg', he⟩ := (hf a mid hm hg hq).stops h
      exact ⟨hg.trans hg', he⟩

theorem Provides.mono {R : α → ConstantPool → Prop} (hx : Provides target x Q)
    (hq : ∀ a target', target.Grows target' → Q a target' → R a target') :
    Provides target x R where
  gives a target' h := by
    obtain ⟨hp, hg, ha⟩ := hx.gives h
    exact ⟨hp, hg, hq a target' hg ha⟩
  stops := hx.stops

theorem provides_pure {a : α} (hp : target.Faithful) (hq : Q a target) :
    Provides target (pure a) Q where
  gives b target' h := by
    obtain ⟨rfl, rfl⟩ := EStateM.pure_eq_ok.mp h
    exact ⟨hp, .refl target, hq⟩
  stops e target' h := by cases h

theorem provides_ask {a : α} {question : ConstantPool → Except Fault α} (hp : target.Faithful)
    (h : question target = .ok a) : Provides target (ask question) fun b _ => b = a where
  gives b target' hb := by
    obtain ⟨ha, rfl⟩ := ask_eq_ok.mp hb
    exact ⟨hp, .refl target, Except.ok.inj (ha.symm.trans h)⟩
  stops e target' he := by cases (ask_eq_error.mp he).1.symm.trans h

/-- A constant that refers to no others is only refused for want of room. -/
theorem provides_add (hp : target.Faithful) (hr : c.references = []) :
    Provides target (add c) fun i target' => target'.get? i = some c where
  gives i target' h := faithful_add hp h
  stops e target' h := by
    cases add_eq_error h
    refine ⟨.refl target, ?_⟩
    cases hl : target.lookup c with
    | some i => cases (add_of_lookup hl).symm.trans h
    | none =>
      rw [add_of_absent hl (by simp [hr])] at h
      split at h
      · cases h
        exact ⟨c, rfl, hl, by assumption⟩
      · cases h

end PoolM

namespace ConstantIndex

theorem provides_copyText {text : String} (hp : target.Faithful) (h : source.text i = .ok text) :
    Provides target (i.copyText source) fun j target' => SameText source target' i j := by
  refine (provides_ask hp h).bind fun _ mid hm _ ht => ?_
  subst ht
  exact (provides_add hm rfl).mono fun j target' _ hj => ⟨_, h, text_eq_ok.mpr hj⟩

theorem copyText_of_add {text : String} (h : source.text i = .ok text)
    (ha : addText text target = .ok j target') : i.copyText source target = .ok j target' :=
  EStateM.bind_eq_ok.mpr ⟨text, target, ask_eq_ok.mpr ⟨h, rfl⟩, ha⟩

theorem provides_copyConstant {type : BaseType} (hp : target.Faithful)
    (h : source.require type.role i = .ok c) :
    Provides target (i.copyConstant source) fun j target' =>
      SameNumber source target' type i j := by
  obtain ⟨hi, hr⟩ := require_eq_ok.mp h
  refine (provides_ask hp (get_eq_ok.mpr hi)).bind fun _ mid hm _ hc => ?_
  subst hc
  exact (provides_add hm (BaseType.references_of_accepts hr)).mono fun j target' _ hj =>
    ⟨_, h, require_eq_ok.mpr ⟨hj, hr⟩⟩

end ConstantIndex

/-! ### Values -/

namespace ElementValue

mutual

/-- The values have one shape, and what lies at the indices of the first one in the pool `source` is
what lies at those of the second one in the pool `target`. -/
inductive Mirrors (source target : ConstantPool) : ElementValue → ElementValue → Prop
  | number {type : BaseType} {i j : ConstantIndex} (value : SameNumber source target type i j) :
      Mirrors source target (number type i) (number type j)
  | string {i j : ConstantIndex} (text : SameText source target i j) :
      Mirrors source target (string i) (string j)
  | enumeration {i j k l : ConstantIndex} (type : SameText source target i j)
      (name : SameText source target k l) :
      Mirrors source target (enumeration i k) (enumeration j l)
  | typeLiteral {i j : ConstantIndex} (descriptor : SameText source target i j) :
      Mirrors source target (typeLiteral i) (typeLiteral j)
  | nested {i j : ConstantIndex} {elements copies : List (ConstantIndex × ElementValue)}
      (type : SameText source target i j) (each : MirrorsElements source target elements copies) :
      Mirrors source target (nested i elements) (nested j copies)
  | array {values copies : List ElementValue} (each : MirrorsValues source target values copies) :
      Mirrors source target (array values) (array copies)

inductive MirrorsValues (source target : ConstantPool) :
    List ElementValue → List ElementValue → Prop
  | nil : MirrorsValues source target [] []
  | cons {v w : ElementValue} {values copies : List ElementValue}
      (value : Mirrors source target v w) (rest : MirrorsValues source target values copies) :
      MirrorsValues source target (v :: values) (w :: copies)

inductive MirrorsElements (source target : ConstantPool) :
    List (ConstantIndex × ElementValue) → List (ConstantIndex × ElementValue) → Prop
  | nil : MirrorsElements source target [] []
  | cons {i j : ConstantIndex} {v w : ElementValue}
      {elements copies : List (ConstantIndex × ElementValue)} (name : SameText source target i j)
      (value : Mirrors source target v w) (rest : MirrorsElements source target elements copies) :
      MirrorsElements source target ((i, v) :: elements) ((j, w) :: copies)

end

mutual

theorem Mirrors.grows (hg : target.Grows target') :
    {v w : ElementValue} → Mirrors source target v w → Mirrors source target' v w
  | _, _, .number value => .number (value.grows hg)
  | _, _, .string text => .string (text.grows hg)
  | _, _, .enumeration type name => .enumeration (type.grows hg) (name.grows hg)
  | _, _, .typeLiteral descriptor => .typeLiteral (descriptor.grows hg)
  | _, _, .nested type each => .nested (type.grows hg) (each.grows hg)
  | _, _, .array each => .array (each.grows hg)

theorem MirrorsValues.grows (hg : target.Grows target') : {values copies : List ElementValue} →
    MirrorsValues source target values copies → MirrorsValues source target' values copies
  | _, _, .nil => .nil
  | _, _, .cons value rest => .cons (value.grows hg) (rest.grows hg)

theorem MirrorsElements.grows (hg : target.Grows target') :
    {elements copies : List (ConstantIndex × ElementValue)} →
      MirrorsElements source target elements copies → MirrorsElements source target' elements copies
  | _, _, .nil => .nil
  | _, _, .cons name value rest => .cons (name.grows hg) (value.grows hg) (rest.grows hg)

end

/-! ### Copying -/

mutual

theorem provides_copy {target : ConstantPool} (hp : target.Faithful) :
    (v : ElementValue) → v.check source = .ok () →
      Provides target (copy source v) fun w target' => Mirrors source target' v w
  | number type i, h => by
    obtain ⟨c, hc, -⟩ := Except.map_eq_ok.mp h
    exact (i.provides_copyConstant hp hc).bind fun j mid hm _ hj => provides_pure hm (.number hj)
  | string i, h => by
    obtain ⟨text, ht, -⟩ := Except.map_eq_ok.mp h
    exact (i.provides_copyText hp ht).bind fun j mid hm _ hj => provides_pure hm (.string hj)
  | typeLiteral i, h => by
    obtain ⟨text, ht, -⟩ := Except.map_eq_ok.mp h
    exact (i.provides_copyText hp ht).bind fun j mid hm _ hj => provides_pure hm (.typeLiteral hj)
  | enumeration i k, h => by
    obtain ⟨_, ht, h⟩ := Except.bind_eq_ok.mp h
    obtain ⟨type, ht, -⟩ := Except.map_eq_ok.mp ht
    obtain ⟨name, hn, -⟩ := Except.map_eq_ok.mp h
    refine (i.provides_copyText hp ht).bind fun j first hfirst _ hj => ?_
    exact (k.provides_copyText hfirst hn).bind fun l mid hm hg hl =>
      provides_pure hm (.enumeration (hj.grows hg) hl)
  | nested i elements, h => by
    unfold check at h
    split at h
    · rename_i type ht
      refine (i.provides_copyText hp ht).bind fun j first hfirst _ hj => ?_
      refine (provides_copyElements hfirst [] elements h).bind ?_
      rintro _ mid hm hg ⟨copies, rfl, hc⟩
      exact provides_pure hm (.nested (hj.grows hg) hc)
    · cases h
  | array values, h => by
    unfold check at h
    refine (provides_copyValues hp [] values h).bind ?_
    rintro _ mid hm _ ⟨copies, rfl, hc⟩
    exact provides_pure hm (.array hc)

theorem provides_copyValues {target : ConstantPool} (hp : target.Faithful)
    (done : List ElementValue) :
    (values : List ElementValue) → checkValues source values = .ok () →
      Provides target (copyValues source done values) fun all target' =>
        ∃ copies, all = done.reverse ++ copies ∧ MirrorsValues source target' values copies
  | [], _ => provides_pure hp ⟨[], (List.append_nil _).symm, .nil⟩
  | v :: values, h => by
    unfold checkValues at h
    split at h
    · rename_i hv
      refine (provides_copy hp v hv).bind fun w mid hm _ hw => ?_
      refine (provides_copyValues hm (w :: done) values h).mono ?_
      rintro _ target' hg ⟨copies, rfl, hc⟩
      exact ⟨w :: copies, by simp, .cons (hw.grows hg) hc⟩
    · cases h

theorem provides_copyElements {target : ConstantPool} (hp : target.Faithful)
    (done : List (ConstantIndex × ElementValue)) :
    (elements : List (ConstantIndex × ElementValue)) → checkElements source elements = .ok () →
      Provides target (copyElements source done elements) fun all target' =>
        ∃ copies, all = done.reverse ++ copies ∧ MirrorsElements source target' elements copies
  | [], _ => provides_pure hp ⟨[], (List.append_nil _).symm, .nil⟩
  | (i, v) :: elements, h => by
    unfold checkElements at h
    split at h
    · cases h
    · rename_i name hn
      split at h
      · rename_i hv
        refine (i.provides_copyText hp hn).bind fun j first hfirst _ hj => ?_
        refine (provides_copy hfirst v hv).bind fun w mid hm hg hw => ?_
        refine (provides_copyElements hm ((j, w) :: done) elements h).mono ?_
        rintro _ target' hg' ⟨copies, rfl, hc⟩
        exact ⟨(j, w) :: copies, by simp, .cons (hj.grows (hg.trans hg')) (hw.grows hg') hc⟩
      · cases h

end

/-! ### What a copy is good for -/

mutual

theorem Mirrors.check : {v w : ElementValue} → Mirrors source target v w → w.check target = .ok ()
  | _, _, .number ⟨c, _, hj⟩ => Except.map_eq_ok.mpr ⟨c, hj, rfl⟩
  | _, _, .string ⟨text, _, hj⟩ => Except.map_eq_ok.mpr ⟨text, hj, rfl⟩
  | _, _, .typeLiteral ⟨text, _, hj⟩ => Except.map_eq_ok.mpr ⟨text, hj, rfl⟩
  | _, _, .enumeration ⟨type, _, hj⟩ ⟨name, _, hl⟩ =>
    Except.bind_eq_ok.mpr ⟨(), Except.map_eq_ok.mpr ⟨type, hj, rfl⟩,
      Except.map_eq_ok.mpr ⟨name, hl, rfl⟩⟩
  | _, _, .nested ⟨type, _, hj⟩ each => by
    unfold ElementValue.check
    rw [hj]
    exact each.check
  | _, _, .array each => by
    unfold ElementValue.check
    exact each.check

theorem MirrorsValues.check : {values copies : List ElementValue} →
    MirrorsValues source target values copies → checkValues target copies = .ok ()
  | _, _, .nil => rfl
  | _, _, .cons value rest => by
    unfold checkValues
    rw [value.check]
    exact rest.check

theorem MirrorsElements.check : {elements copies : List (ConstantIndex × ElementValue)} →
    MirrorsElements source target elements copies → checkElements target copies = .ok ()
  | _, _, .nil => rfl
  | _, _, .cons ⟨name, _, hj⟩ value rest => by
    unfold checkElements
    rw [hj, value.check]
    exact rest.check

end

theorem copyElements_one {source p mid q : ConstantPool} {i j : ConstantIndex}
    {v w : ElementValue} (hi : i.copyText source p = .ok j mid)
    (hv : v.copy source mid = .ok w q) : copyElements source [] [(i, v)] p = .ok [(j, w)] q :=
  EStateM.bind_eq_ok.mpr ⟨j, mid, hi, EStateM.bind_eq_ok.mpr ⟨w, q, hv, rfl⟩⟩

end ElementValue

namespace ConstantPool

theorem display_of_text {text : String} (h : source.text i = .ok text) :
    source.display i = text := by
  rw [display, render, get_eq_ok.mpr (text_eq_ok.mp h)]
  rfl

theorem SameText.display (h : SameText source target i j) :
    target.display j = source.display i := by
  obtain ⟨text, hi, hj⟩ := h
  rw [display_of_text hi, display_of_text hj]

theorem SameNumber.display {type : BaseType} (h : SameNumber source target type i j) :
    target.display j = source.display i := by
  obtain ⟨c, hi, hj⟩ := h
  obtain ⟨hi, hr⟩ := require_eq_ok.mp hi
  obtain ⟨hj, -⟩ := require_eq_ok.mp hj
  rw [ConstantPool.display, ConstantPool.display, render, render, get_eq_ok.mpr hi,
    get_eq_ok.mpr hj]
  cases c with
  | integer | float | long | double => rfl
  | _ => cases type <;> cases hr

end ConstantPool

namespace ElementValue

theorem displayBoolean_eq (h : SameNumber source target .boolean i j) :
    displayBoolean target j = displayBoolean source i := by
  have hd := h.display
  obtain ⟨c, hi, hj⟩ := h
  rw [displayBoolean, displayBoolean, (require_eq_ok.mp hi).1, (require_eq_ok.mp hj).1, hd]

theorem display_number {type : BaseType} (h : SameNumber source target type i j) :
    (number type j).display target = (number type i).display source := by
  cases type with
  | boolean => exact displayBoolean_eq h
  | _ => exact h.display

mutual

theorem Mirrors.display : {v w : ElementValue} → Mirrors source target v w →
    w.display target = v.display source
  | _, _, .number value => display_number value
  | _, _, .string ⟨text, hi, hj⟩ => by
    unfold ElementValue.display displayString
    rw [hi, hj]
  | _, _, .typeLiteral descriptor => by
    unfold ElementValue.display
    rw [descriptor.display]
  | _, _, .enumeration type name => by
    unfold ElementValue.display
    rw [type.display, name.display]
  | _, _, .nested type each => by
    unfold ElementValue.display
    rw [type.display, each.display []]
  | _, _, .array each => by
    unfold ElementValue.display
    rw [each.display []]

theorem MirrorsValues.display : {values copies : List ElementValue} →
    MirrorsValues source target values copies → (done : List String) →
      displayValues target done copies = displayValues source done values
  | _, _, .nil, _ => rfl
  | _, _, .cons value rest, done => by
    unfold displayValues
    rw [value.display]
    exact rest.display _

theorem MirrorsElements.display : {elements copies : List (ConstantIndex × ElementValue)} →
    MirrorsElements source target elements copies → (done : List String) →
      displayElements target done copies = displayElements source done elements
  | _, _, .nil, _ => rfl
  | _, _, .cons name value rest, done => by
    unfold displayElements
    rw [name.display, value.display]
    exact rest.display _

end

end ElementValue

namespace AnnotationUse

variable {u : AnnotationUse} {uses : List AnnotationUse} {attributes : List Attribute}

/-- The annotations are both visible or both not, and what they consist of mirrors each other. -/
structure Mirrors (source target : ConstantPool) (u copied : AnnotationUse) : Prop where
  visible : copied.visible = u.visible
  body : (ElementValue.nested u.body.type u.body.elements).Mirrors source target
    (.nested copied.body.type copied.body.elements)

theorem provides_copy (hp : target.Faithful) (h : u.check source = .ok ()) :
    Provides target (u.copy source) fun copied target' => u.Mirrors source target' copied := by
  obtain ⟨_, ht, h⟩ := Except.bind_eq_ok.mp h
  obtain ⟨type, ht, -⟩ := Except.map_eq_ok.mp ht
  have hbody : Provides target (u.body.copy source) fun copied target' =>
      u.Mirrors source target' ⟨copied, u.visible⟩ := by
    refine (u.body.type.provides_copyText hp ht).bind fun j first hfirst _ hj => ?_
    refine (ElementValue.provides_copyElements hfirst [] u.body.elements h).bind ?_
    rintro _ mid hm hg ⟨copies, rfl, hc⟩
    exact provides_pure hm ⟨rfl, .nested (hj.grows hg) hc⟩
  exact hbody.bind fun copied mid hm _ hc => provides_pure hm hc

theorem Mirrors.check {copied : AnnotationUse} (h : u.Mirrors source target copied) :
    copied.check target = .ok () := by
  have hb := h.body.check
  unfold ElementValue.check at hb
  split at hb
  · rename_i type ht
    exact Except.bind_eq_ok.mpr ⟨(), Except.map_eq_ok.mpr ⟨type, ht, rfl⟩, hb⟩
  · cases hb

/-- A copy of an annotation that was found among attributes has the shape and the visibility of the
original, has at each index the text or the number of the original, fits the pool it was copied
into, and reads the same there. Only for want of room can copying fail. Whether it fails or not, no
index of that pool stands for anything else than before. -/
theorem copy_mirrors (hp : target.Obtained) (h : source.annotations attributes = .ok uses)
    (hu : u ∈ uses) :
    (∀ copied target', u.copy source target = .ok copied target' →
      target.Grows target' ∧ u.Mirrors source target' copied ∧ copied.check target' = .ok () ∧
        copied.display target' = u.display source) ∧
    ∀ e target', u.copy source target = .error e target' →
      target.Grows target' ∧ target'.NoRoom e := by
  have hprovides := provides_copy hp.faithful (check_of_annotations h u hu)
  refine ⟨fun copied target' hc => ?_, fun e target' he => hprovides.stops he⟩
  obtain ⟨-, hg, hm⟩ := hprovides.gives hc
  exact ⟨hg, hm, hm.check, hm.body.display⟩

/-- Its element `x` is an array of a number that is none and of an annotation of the same type. The
text `x` is there twice. -/
def selfSimilar : Attribute :=
  ⟨⟨1⟩, [0, 1, 0, 2, 0, 1, 0, 3, 91, 0, 2, 70, 0, 5, 64, 0, 2, 0, 1, 0, 4, 115, 0, 3]⟩

def selfSimilarUse (type x y number : ConstantIndex) : AnnotationUse :=
  ⟨⟨type, [(x, .array [.number .float number, .nested type [(y, .string x)]])]⟩, true⟩

/-- The pool it is copied into has the number and the text, but not the type. -/
theorem copy_mirrors_selfSimilar : ∃ source target target',
    ofTable (WidthTable.ofList 1 [.utf8 "RuntimeVisibleAnnotations", .utf8 "LA;", .utf8 "x",
      .utf8 "x", .float 0x7fc00001]) = .ok source ∧
    ofTable (WidthTable.ofList 1 [.float 0x7fc00001, .utf8 "x"]) = .ok target ∧
    source.annotations [selfSimilar] = .ok [selfSimilarUse ⟨2⟩ ⟨3⟩ ⟨4⟩ ⟨5⟩] ∧
    (selfSimilarUse ⟨2⟩ ⟨3⟩ ⟨4⟩ ⟨5⟩).copy source target =
      .ok (selfSimilarUse ⟨3⟩ ⟨2⟩ ⟨2⟩ ⟨1⟩) target' ∧
    target'.extent = 4 ∧
    (selfSimilarUse ⟨3⟩ ⟨2⟩ ⟨2⟩ ⟨1⟩).display target' =
      (selfSimilarUse ⟨2⟩ ⟨3⟩ ⟨4⟩ ⟨5⟩).display source := by
  obtain ⟨source, hs⟩ : ∃ source, ofTable (WidthTable.ofList 1 [.utf8 "RuntimeVisibleAnnotations",
    .utf8 "LA;", .utf8 "x", .utf8 "x", .float 0x7fc00001]) = .ok source := ⟨_, rfl⟩
  obtain ⟨target, ht⟩ : ∃ target,
    ofTable (WidthTable.ofList 1 [.float 0x7fc00001, .utf8 "x"]) = .ok target := ⟨_, rfl⟩
  have hfound : source.annotations [selfSimilar] = .ok [selfSimilarUse ⟨2⟩ ⟨3⟩ ⟨4⟩ ⟨5⟩] := by
    obtain ⟨-, rfl, -⟩ := ofTable_eq_ok hs
    rfl
  obtain ⟨htype, hname, hagain, hnumber⟩ : source.text ⟨2⟩ = .ok "LA;" ∧
      source.text ⟨3⟩ = .ok "x" ∧ source.text ⟨4⟩ = .ok "x" ∧
      source.get ⟨5⟩ = .ok (.float 0x7fc00001) := by
    obtain ⟨-, rfl, -⟩ := ofTable_eq_ok hs
    exact ⟨rfl, rfl, rfl, rfl⟩
  obtain ⟨habsent, hx, hf, hextent⟩ : target.lookup (.utf8 "LA;") = none ∧
      target.lookup (.utf8 "x") = some ⟨2⟩ ∧ target.lookup (.float 0x7fc00001) = some ⟨1⟩ ∧
      target.extent = 3 := by
    simp only [lookup_ofTable ht]
    obtain ⟨-, rfl, -⟩ := ofTable_eq_ok ht
    decide
  -- the type is added first, and found from then on like all the rest
  obtain ⟨mid, ha, hm⟩ : ∃ mid, addText "LA;" target = .ok ⟨3⟩ mid ∧ mid.extent = 4 := by
    have ha := add_of_absent habsent nofun
    rw [hextent, if_neg (by decide)] at ha
    exact ⟨_, ha, congrArg (· + 1) hextent⟩
  have hfind : ∀ {c i}, mid.lookup c = some i → add c mid = .ok i mid := add_of_lookup
  have hA := ConstantIndex.copyText_of_add htype (hfind (lookup_of_add ha))
  have hX := ConstantIndex.copyText_of_add hname (hfind (lookup_add hx ha))
  have hY := ConstantIndex.copyText_of_add hagain (hfind (lookup_add hx ha))
  have hF : ConstantIndex.copyConstant source ⟨5⟩ mid = .ok ⟨1⟩ mid :=
    EStateM.bind_eq_ok.mpr ⟨_, mid, ask_eq_ok.mpr ⟨hnumber, rfl⟩, hfind (lookup_add hf ha)⟩
  have hnested : ElementValue.copy source (.nested ⟨2⟩ [(⟨4⟩, .string ⟨3⟩)]) mid =
      .ok (.nested ⟨3⟩ [(⟨2⟩, .string ⟨2⟩)]) mid :=
    EStateM.bind_eq_ok.mpr ⟨_, mid, hA, EStateM.map_eq_ok.mpr
      ⟨_, ElementValue.copyElements_one hY (EStateM.map_eq_ok.mpr ⟨_, hX, rfl⟩), rfl⟩⟩
  have harray : ElementValue.copy source
      (.array [.number .float ⟨5⟩, .nested ⟨2⟩ [(⟨4⟩, .string ⟨3⟩)]]) mid =
        .ok (.array [.number .float ⟨1⟩, .nested ⟨3⟩ [(⟨2⟩, .string ⟨2⟩)]]) mid := by
    have hfirst : ElementValue.copy source (.number .float ⟨5⟩) mid =
        .ok (.number .float ⟨1⟩) mid := EStateM.map_eq_ok.mpr ⟨_, hF, rfl⟩
    refine EStateM.map_eq_ok.mpr ⟨_, EStateM.bind_eq_ok.mpr ⟨_, mid, hfirst, ?_⟩, rfl⟩
    exact EStateM.bind_eq_ok.mpr ⟨_, mid, hnested, rfl⟩
  have hbody : (selfSimilarUse ⟨2⟩ ⟨3⟩ ⟨4⟩ ⟨5⟩).body.copy source target =
      .ok (selfSimilarUse ⟨3⟩ ⟨2⟩ ⟨2⟩ ⟨1⟩).body mid :=
    EStateM.bind_eq_ok.mpr ⟨_, mid, ConstantIndex.copyText_of_add htype ha,
      EStateM.map_eq_ok.mpr ⟨_, ElementValue.copyElements_one hX harray, rfl⟩⟩
  have hcopy : (selfSimilarUse ⟨2⟩ ⟨3⟩ ⟨4⟩ ⟨5⟩).copy source target =
      .ok (selfSimilarUse ⟨3⟩ ⟨2⟩ ⟨2⟩ ⟨1⟩) mid := EStateM.map_eq_ok.mpr ⟨_, hbody, rfl⟩
  have h := (copy_mirrors (.ofTable ht) hfound List.mem_cons_self).1 _ mid hcopy
  exact ⟨source, target, mid, hs, ht, hfound, hcopy, hm, h.2.2.2⟩

end AnnotationUse

end Classfile
