import Classfile.Draft.Field
import Classfile.Proofs.Annotation.Held
import Classfile.Proofs.Descriptor.Parser
import Classfile.Proofs.Draft.Refusal

/-!
A draft of a stored field is in order, and what is built from it is in normal form: it has a draft
again, which is built to the same field. Nothing is added to the pool.
-/
namespace Classfile

open ConstantPool

variable {pool pool' : ConstantPool} {d e : FieldDraft} {f r : Field} {a : Attribute}
  {attributes : List Attribute}

namespace FieldDraft

/-- The names of the attributes of a field that are not kept as they are. -/
def modelledNames : List String :=
  Payload.name ConstantValue :: (annotationNames ++ parameterAnnotationNames)

/-- A draft that can be stored and read back, without adding to the pool. -/
structure Valid (pool : ConstantPool) (d : FieldDraft) : Prop where
  initialValue : ∀ v ∈ d.initialValue, pool.Held (Payload.name ConstantValue) ∧
    ∃ c, pool.get v = .ok c ∧ d.type.admits c
  annotations : ∀ u ∈ d.annotations, u.check pool = .ok () ∧ pool.Held (annotationName u.visible)
  attributes : ∀ a ∈ d.attributes, a.Apart pool modelledNames
  type : FieldType.parse d.type.describe = .ok d.type

/-- The draft as it is when it was stored and read back. -/
def restored (d : FieldDraft) : FieldDraft := { d with annotations := byVisibility d.annotations }

/-- The attributes are that of the initial value, if there is one. -/
def StoresInitial (pool : ConstantPool) (d : FieldDraft) (attributes : List Attribute) : Prop :=
  match d.initialValue with
  | none => attributes = []
  | some v => ∃ a, attributes = [a] ∧ a.Holds pool (ConstantValue.mk v)

/-- The field is what the draft looks like when it is stored. -/
structure Stores (pool : ConstantPool) (d : FieldDraft) (r : Field) : Prop where
  flags : r.flags = d.flags
  name : pool.text r.name = .ok d.name
  descriptor : pool.text r.descriptor = .ok d.type.describe
  attributes : ∃ initial annotations, StoresInitial pool d initial ∧
    StoresAnnotations pool d.annotations annotations ∧
      r.attributes = initial ++ d.attributes ++ annotations

/-! ### Taking in -/

theorem setInitialValue_eq_ok {v : ConstantIndex} :
    (FieldM.setInitialValue v).result d pool = .ok e ↔
      (∃ c, pool.get v = .ok c ∧ d.type.admits c) ∧ e = { d with initialValue := some v } := by
  rw [DraftM.result_eq_ok]
  constructor
  · rintro ⟨pool', h⟩
    obtain ⟨hc, he⟩ := FieldM.setInitialValue_eq_ok.mp h
    cases he
    exact ⟨hc, rfl⟩
  · rintro ⟨hc, rfl⟩
    exact ⟨pool, FieldM.setInitialValue_eq_ok.mpr ⟨hc, rfl⟩⟩

theorem absorb_eq_ok (h : absorb pool d a = .ok e) :
    (∃ p, pool.payload? ConstantValue a = .ok (some p) ∧
      (FieldM.setInitialValue p.value).result d pool = .ok e) ∨
    (a.Named pool modelledNames ∧ e = d) ∨
    (a.Apart pool modelledNames ∧ e = { d with attributes := d.attributes ++ [a] }) := by
  obtain ⟨name, hn, h⟩ := Except.bind_eq_ok.mp h
  obtain ⟨q, hc, h⟩ := Except.bind_eq_ok.mp h
  cases q with
  | some p => exact .inl ⟨p, hc, h⟩
  | none =>
    dsimp only at h
    split at h
    · rename_i hk
      cases h
      have hm := isAnnotationAttribute_iff.mp hk
      exact .inr (.inl ⟨⟨name, List.mem_cons_of_mem _ hm, hn⟩, rfl⟩)
    · rename_i hk
      cases h
      refine .inr (.inr ⟨?_, rfl⟩)
      obtain ⟨_, hn', hvalue⟩ := payload?_eq_none hc
      rw [hn] at hn'
      cases hn'
      rw [isAnnotationAttribute_iff] at hk
      exact ⟨name, hn, fun hm => (List.mem_cons.mp hm).elim hvalue hk⟩

theorem valid_absorb (hv : Valid pool d) (h : absorb pool d a = .ok e) :
    Valid pool e ∧ e.flags = d.flags ∧ e.name = d.name ∧ e.type = d.type := by
  rcases absorb_eq_ok h with ⟨p, hp, hs⟩ | ⟨-, rfl⟩ | ⟨hap, rfl⟩
  · obtain ⟨hc, rfl⟩ := setInitialValue_eq_ok.mp hs
    refine ⟨⟨?_, hv.annotations, hv.attributes, hv.type⟩, rfl, rfl, rfl⟩
    intro v hv
    cases hv
    exact ⟨held_of_payload? hp, hc⟩
  · exact ⟨hv, rfl, rfl, rfl⟩
  · refine ⟨⟨hv.initialValue, hv.annotations, ?_, hv.type⟩, rfl, rfl, rfl⟩
    intro b hb
    rcases List.mem_append.mp hb with hb | hb
    · exact hv.attributes b hb
    · cases List.mem_singleton.mp hb
      exact hap

/-- A stored field becomes a draft when its attributes are taken in one by one. -/
theorem ofField_eq_ok (h : ofField pool f = .ok d) : ∃ name descriptor base e annotations,
    pool.text f.name = .ok name ∧ pool.text f.descriptor = .ok descriptor ∧
    make f.flags name descriptor = .ok base ∧ f.attributes.foldlM (absorb pool) base = .ok e ∧
    pool.annotations f.attributes = .ok annotations ∧ d = { e with annotations } := by
  obtain ⟨name, hn, h⟩ := Except.bind_eq_ok.mp h
  obtain ⟨descriptor, hd, h⟩ := Except.bind_eq_ok.mp h
  split at h
  · cases h
  · rename_i base hb
    obtain ⟨e, he, h⟩ := Except.bind_eq_ok.mp h
    obtain ⟨annotations, ha, rfl⟩ := Except.map_eq_ok.mp h
    exact ⟨name, descriptor, base, e, annotations, hn, hd, hb, he, ha, rfl⟩

/-- A draft of a stored field is in order, and is a draft of that field. -/
theorem valid_ofField (h : ofField pool f = .ok d) : Valid pool d ∧ d.flags = f.flags ∧
    pool.text f.name = .ok d.name ∧ pool.text f.descriptor = .ok d.type.describe := by
  obtain ⟨name, descriptor, base, e, annotations, hn, hd, hb, he, ha, rfl⟩ := ofField_eq_ok h
  obtain ⟨type, ht, rfl⟩ := Except.map_eq_ok.mp hb
  have hdesc := FieldType.describe_parse ht
  have hbase : Valid pool (⟨f.flags, name, type, none, [], []⟩ : FieldDraft) :=
    ⟨by simp, by simp, by simp, by rw [hdesc, ht]⟩
  obtain ⟨hv, hflags, hname, htype⟩ := Except.foldlM_invariant
    (P := fun e => Valid pool e ∧ e.flags = f.flags ∧ e.name = name ∧ e.type = type)
    ⟨hbase, rfl, rfl, rfl⟩ (fun g hg b _ t ht => by
      obtain ⟨hv, hflags, hname, htype⟩ := valid_absorb hg.1 ht
      exact ⟨hv, hflags.trans hg.2.1, hname.trans hg.2.2.1, htype.trans hg.2.2.2⟩) he
  refine ⟨⟨hv.initialValue, ?_, hv.attributes, hv.type⟩, hflags, ?_, ?_⟩
  · exact fun u hu => ⟨check_of_annotations ha u hu, held_of_annotations ha u hu⟩
  · rw [hn, ← hname]
  · rw [hd, ← hdesc, ← htype]

theorem absorb_initialValue {v : ConstantIndex} (ha : a.Holds pool (ConstantValue.mk v))
    (hc : ∃ c, pool.get v = .ok c ∧ e.type.admits c) :
    absorb pool e a = .ok { e with initialValue := some v } := by
  rw [absorb, ha.name, Except.ok_bind,
    payload?_of_yields ha.name (ConstantValue.yields_read ha.info)]
  exact setInitialValue_eq_ok.mpr ⟨hc, rfl⟩

theorem absorb_annotations
    (ha : a.Named pool (annotationNames ++ parameterAnnotationNames)) :
    absorb pool e a = .ok e := by
  have hn : a.Apart pool [Payload.name ConstantValue] := ha.apart (by decide)
  have hc : pool.payload? ConstantValue a = .ok none := hn.payload? (by simp)
  obtain ⟨name, hm, hname⟩ := ha
  rw [absorb, hname, Except.ok_bind, hc, Except.ok_bind]
  dsimp only
  rw [if_pos (isAnnotationAttribute_iff.mpr hm)]
  rfl

theorem absorb_other (ha : a.Apart pool modelledNames) :
    absorb pool e a = .ok { e with attributes := e.attributes ++ [a] } := by
  have hc : pool.payload? ConstantValue a = .ok none := ha.payload? (by simp [modelledNames])
  obtain ⟨name, hname, hn⟩ := ha
  have hk : ¬ isAnnotationAttribute name = true := by
    rw [isAnnotationAttribute_iff]
    exact fun hm => hn (List.mem_cons_of_mem _ hm)
  rw [absorb, hname, Except.ok_bind, hc, Except.ok_bind]
  dsimp only
  rw [if_neg hk]
  rfl

theorem foldlM_absorb_other (ha : ∀ a ∈ attributes, a.Apart pool modelledNames) :
    attributes.foldlM (absorb pool) e =
      .ok { e with attributes := e.attributes ++ attributes } :=
  Except.foldlM_collect (g := fun attributes => { e with attributes }) fun a hm _ =>
    absorb_other (ha a hm)

/-- The draft as it is before any of the attributes is taken in. -/
def bare (d : FieldDraft) : FieldDraft :=
  { d with initialValue := none, annotations := [], attributes := [] }

theorem foldlM_absorb_initial (hv : Valid pool d) (h : StoresInitial pool d attributes) :
    attributes.foldlM (absorb pool) d.bare =
      .ok { d.bare with initialValue := d.initialValue } := by
  unfold StoresInitial at h
  split at h
  · rename_i hn
    rw [h, hn]
    rfl
  · rename_i v hn
    obtain ⟨a, rfl, ha⟩ := h
    have hc : ∃ c, pool.get v = .ok c ∧ d.bare.type.admits c := (hv.initialValue v hn).2
    rw [List.foldlM_cons, absorb_initialValue ha hc, hn]
    rfl

theorem StoresInitial.name (h : StoresInitial pool d attributes) (ha : a ∈ attributes) :
    pool.attributeName a = .ok (Payload.name ConstantValue) := by
  unfold StoresInitial at h
  split at h
  · rw [h] at ha
    cases ha
  · obtain ⟨b, rfl, hb⟩ := h
    cases List.mem_singleton.mp ha
    exact hb.name

/-- Everything that was stored is found again. -/
theorem ofField_of_stores (hs : Stores pool d r) (hv : Valid pool d) :
    ofField pool r = .ok d.restored := by
  obtain ⟨initial, annotations, hi, ha, hr⟩ := hs.attributes
  have hothers : ∀ a ∈ initial ++ d.attributes, a.Apart pool annotationNames := by
    intro a h
    rcases List.mem_append.mp h with h | h
    · exact ⟨_, hi.name h, by decide⟩
    · exact (hv.attributes a h).mono fun _ hm =>
        List.mem_cons_of_mem _ (List.mem_append_left _ hm)
  have hann : pool.annotations r.attributes = .ok (byVisibility d.annotations) := by
    have hc := fun u hu => (hv.annotations u hu).1
    rw [hr, ← List.append_nil annotations, ← List.append_assoc]
    exact annotations_eq hothers ha (by simp) hc
  have hmake : make r.flags d.name d.type.describe = .ok d.bare := by
    rw [make, hv.type, hs.flags]
    rfl
  have hfold : r.attributes.foldlM (absorb pool) d.bare = .ok { d with annotations := [] } := by
    rw [hr, List.foldlM_append, List.foldlM_append, foldlM_absorb_initial hv hi, Except.ok_bind,
      foldlM_absorb_other hv.attributes, Except.ok_bind]
    exact Except.foldlM_eq_self fun a h =>
      absorb_annotations ((ha.named a h).mono fun _ => List.mem_append_left _)
  rw [ofField, hs.name, Except.ok_bind, hs.descriptor, Except.ok_bind, hmake]
  dsimp only
  rw [hfold, Except.ok_bind, hann]
  rfl

/-! ### Building -/

/-- Add the attribute of the initial value, if there is one. -/
def addInitial (d : FieldDraft) : PoolM (List Attribute) :=
  match d.initialValue with
  | none => pure []
  | some v => do return [← PoolM.addAttribute (ConstantValue.mk v)]

theorem build_eq : d.build = do
    let name ← PoolM.addText d.name
    let descriptor ← PoolM.addText d.type.describe
    let initial ← d.addInitial
    let annotations ← PoolM.addAnnotations d.annotations
    return ⟨d.flags, name, descriptor, initial ++ d.attributes ++ annotations⟩ := by
  unfold build addInitial
  cases d.initialValue <;> simp

theorem addInitial_eq_ok (hp : pool.Faithful) (h : d.addInitial pool = .ok attributes pool') :
    pool'.Faithful ∧ pool.Grows pool' ∧ StoresInitial pool' d attributes := by
  unfold addInitial at h
  unfold StoresInitial
  cases hn : d.initialValue with
  | none =>
    rw [hn] at h
    obtain ⟨rfl, rfl⟩ := EStateM.pure_eq_ok.mp h
    exact ⟨hp, Grows.refl _, rfl⟩
  | some v =>
    rw [hn] at h
    obtain ⟨a, ha, rfl⟩ := EStateM.map_eq_ok.mp h
    obtain ⟨hp', hg, ha⟩ := PoolM.addAttribute_eq_ok hp ha
    exact ⟨hp', hg, a, rfl, ha⟩

theorem StoresInitial.grows (h : StoresInitial pool d attributes) (hg : pool.Grows pool') :
    StoresInitial pool' d attributes := by
  unfold StoresInitial at h ⊢
  cases hn : d.initialValue with
  | none => rwa [hn] at h
  | some v =>
    rw [hn] at h
    obtain ⟨a, rfl, ha⟩ := h
    exact ⟨a, rfl, ha.grows hg⟩

theorem stores_of_build (hp : pool.Faithful) (h : d.build pool = .ok r pool') :
    pool'.Faithful ∧ pool.Grows pool' ∧ Stores pool' d r := by
  rw [build_eq] at h
  obtain ⟨name, pool₁, hn, h⟩ := EStateM.bind_eq_ok.mp h
  obtain ⟨descriptor, pool₂, hd, h⟩ := EStateM.bind_eq_ok.mp h
  obtain ⟨initial, pool₃, hi, h⟩ := EStateM.bind_eq_ok.mp h
  obtain ⟨annotations, ha, rfl⟩ := EStateM.map_eq_ok.mp h
  obtain ⟨hp₁, hg₁, hn⟩ := PoolM.faithful_addText hp hn
  obtain ⟨hp₂, hg₂, hd⟩ := PoolM.faithful_addText hp₁ hd
  obtain ⟨hp₃, hg₃, hi⟩ := addInitial_eq_ok hp₂ hi
  obtain ⟨hp₄, hg₄, ha⟩ := PoolM.addAnnotations_eq_ok hp₃ ha
  have h₃ := hg₃.trans hg₄
  exact ⟨hp₄, hg₁.trans (hg₂.trans h₃), rfl, (hg₂.trans h₃).text hn, h₃.text hd, initial,
    annotations, hi.grows hg₄, ha, rfl⟩

theorem keeps_build (hp : pool.Faithful) (hv : Valid pool d) (hname : pool.Held d.name)
    (hdescriptor : pool.Held d.type.describe) : PoolM.Keeps pool d.build := by
  have hinitial : PoolM.Keeps pool d.addInitial := by
    unfold addInitial
    split
    · exact PoolM.keeps_pure _
    · rename_i v hn
      exact (PoolM.keeps_addAttribute hp (hv.initialValue v hn).1).bind fun _ =>
        PoolM.keeps_pure _
  rw [build_eq]
  refine (PoolM.keeps_addText hp hname).bind fun _ => ?_
  refine (PoolM.keeps_addText hp hdescriptor).bind fun _ => ?_
  refine hinitial.bind fun _ => ?_
  exact (PoolM.keeps_addAnnotations hp fun u hu => (hv.annotations u hu).2).bind fun _ =>
    PoolM.keeps_pure _

theorem build_restored : d.restored.build = d.build := by
  rw [build_eq, build_eq]
  simp only [restored, PoolM.addAnnotations_byVisibility]
  rfl

/-- A field that was built from a draft of a stored one needs nothing new in the pool, has the name
and the descriptor of that one, and is built again from its own draft. -/
theorem build_ofField (hp : pool.Coherent) (hd : ofField pool f = .ok d)
    (h : d.build pool = .ok r pool') : pool' = pool ∧
      (∃ e, ofField pool r = .ok e ∧ e.build pool = .ok r pool) ∧
        pool.text r.name = pool.text f.name ∧ pool.text r.descriptor = pool.text f.descriptor := by
  obtain ⟨hv, -, hname, hdescriptor⟩ := valid_ofField hd
  cases keeps_build hp.faithful hv ⟨_, hname⟩ ⟨_, hdescriptor⟩ h
  obtain ⟨-, -, hs⟩ := stores_of_build hp.faithful h
  refine ⟨rfl, ⟨d.restored, ofField_of_stores hs hv, ?_⟩, hs.name.trans hname.symm,
    hs.descriptor.trans hdescriptor.symm⟩
  rw [build_restored]
  exact h

end FieldDraft

end Classfile
