import Classfile.Proofs.Annotation.Uses
import Classfile.Proofs.Descriptor.Parser
import Classfile.Proofs.Draft.Code

/-!
Building a method and making a draft of it again gives the draft back: with new handles for its
instructions, which the tables refer to now, and with its visible annotations before the others.
-/
namespace Classfile

open InstructionSeq ConstantPool

variable {pool pool' : ConstantPool} {d e : MethodDraft} {r : Method} {body : CodeBody}
  {a : Attribute} {attributes : List Attribute}

namespace MethodDraft

/-- The names of the attributes of a method that are not kept as they are. -/
def modelledNames : List String :=
  [Payload.name CodeBody, Payload.name Exceptions] ++
    (annotationNames ++ parameterAnnotationNames)

/-- A draft without instructions has no code at all when it is stored. -/
def dropCode (d : MethodDraft) : MethodDraft :=
  { d with
    instructions := .empty, maxStack := 0, maxLocals := 0, handlers := [], lines := #[]
    scopes := [], typeScopes := [], codeAttributes := [] }

/-- The draft as it is when it was stored and read back. -/
def restored (d : MethodDraft) : MethodDraft :=
  { if d.instructions.isEmpty then d.dropCode else d.withCodeOf d with
    annotations := byVisibility d.annotations
    parameterAnnotations := parametersByVisibility d.parameterAnnotations }

/-- The attributes are that of the code, unless there are no instructions. -/
def StoresInstructions (pool : ConstantPool) (d : MethodDraft) (attributes : List Attribute) :
    Prop :=
  if d.instructions.isEmpty then attributes = []
  else ∃ a body, attributes = [a] ∧ a.Holds pool body ∧ StoresCode pool d body

/-- The method is what the draft looks like when it is stored. -/
structure Stores (pool : ConstantPool) (d : MethodDraft) (r : Method) : Prop where
  flags : r.flags = d.flags
  name : pool.text r.name = .ok d.name
  descriptor : pool.text r.descriptor = .ok d.descriptor.describe
  attributes : ∃ code exceptions annotations parameterAnnotations,
    StoresInstructions pool d code ∧
    Attribute.HoldsUnless pool d.exceptions.isEmpty (Exceptions.mk d.exceptions) exceptions ∧
    StoresAnnotations pool d.annotations annotations ∧
    StoresParameters pool d.parameterAnnotations parameterAnnotations ∧
    r.attributes = code ++ exceptions ++ d.attributes ++ annotations ++ parameterAnnotations

/-! ### Storing -/

theorem StoresCode.grows (h : StoresCode pool d body) (hg : pool.Grows pool') :
    StoresCode pool' d body := by
  obtain ⟨lines, scopes, typeScopes, xs, ys, zs, hl, hs, ht, hx, hy, hz, ha⟩ := h.attributes
  exact ⟨h.maxStack, h.maxLocals, h.code, h.handlers, lines, scopes, typeScopes, xs, ys, zs, hl,
    hs, ht, hx.grows hg, hy.grows hg, hz.grows hg, ha⟩

theorem StoresInstructions.grows (h : StoresInstructions pool d attributes)
    (hg : pool.Grows pool') : StoresInstructions pool' d attributes := by
  unfold StoresInstructions at h ⊢
  split
  · rename_i he
    rwa [if_pos he] at h
  · rename_i he
    rw [if_neg he] at h
    obtain ⟨a, body, rfl, ha, hs⟩ := h
    exact ⟨a, body, rfl, ha.grows hg, hs.grows hg⟩

theorem StoresInstructions.name (h : StoresInstructions pool d attributes) (ha : a ∈ attributes) :
    pool.attributeName a = .ok (Payload.name CodeBody) := by
  unfold StoresInstructions at h
  split at h
  · rw [h] at ha
    cases ha
  · obtain ⟨b, body, rfl, hb, -⟩ := h
    cases List.mem_singleton.mp ha
    exact hb.name

/-- Add the attribute of the code, unless there are no instructions. -/
def addCode (d : MethodDraft) : PoolM (List Attribute) :=
  if d.instructions.isEmpty then pure [] else do return [← PoolM.addAttribute (← d.buildCode)]

theorem addCode_eq_ok (hp : pool.Faithful) (h : d.addCode pool = .ok attributes pool') :
    pool'.Faithful ∧ pool.Grows pool' ∧ StoresInstructions pool' d attributes := by
  unfold addCode at h
  unfold StoresInstructions
  split at h
  · rename_i he
    obtain ⟨rfl, rfl⟩ := EStateM.pure_eq_ok.mp h
    exact ⟨hp, Grows.refl _, by rw [if_pos he]⟩
  · rename_i he
    obtain ⟨body, mid, hb, h⟩ := EStateM.bind_eq_ok.mp h
    obtain ⟨a, ha, rfl⟩ := EStateM.map_eq_ok.mp h
    obtain ⟨hm, hg, hs⟩ := storesCode_of_buildCode hp hb
    obtain ⟨hp', hg', ha⟩ := PoolM.addAttribute_eq_ok hm ha
    exact ⟨hp', hg.trans hg', by rw [if_neg he]; exact ⟨a, body, rfl, ha, hs.grows hg'⟩⟩

theorem build_eq : d.build = do
    let name ← PoolM.addText d.name
    let descriptor ← PoolM.addText d.descriptor.describe
    let code ← d.addCode
    let exceptions ← PoolM.addUnless d.exceptions.isEmpty (Exceptions.mk d.exceptions)
    let annotations ← PoolM.addAnnotations d.annotations
    let parameterAnnotations ← PoolM.addParameterAnnotations d.parameterAnnotations
    return ⟨d.flags, name, descriptor,
      code ++ exceptions ++ d.attributes ++ annotations ++ parameterAnnotations⟩ := by
  unfold build addCode PoolM.addUnless
  cases d.instructions.isEmpty <;> cases d.exceptions.isEmpty <;> simp

theorem stores_of_build (hp : pool.Faithful) (h : d.build pool = .ok r pool') :
    pool'.Faithful ∧ pool.Grows pool' ∧ Stores pool' d r := by
  rw [build_eq] at h
  obtain ⟨name, pool₁, hn, h⟩ := EStateM.bind_eq_ok.mp h
  obtain ⟨descriptor, pool₂, hd, h⟩ := EStateM.bind_eq_ok.mp h
  obtain ⟨code, pool₃, hc, h⟩ := EStateM.bind_eq_ok.mp h
  obtain ⟨exceptions, pool₄, he, h⟩ := EStateM.bind_eq_ok.mp h
  obtain ⟨annotations, pool₅, ha, h⟩ := EStateM.bind_eq_ok.mp h
  obtain ⟨parameterAnnotations, hq, rfl⟩ := EStateM.map_eq_ok.mp h
  obtain ⟨hp₁, hg₁, hn⟩ := PoolM.faithful_addText hp hn
  obtain ⟨hp₂, hg₂, hd⟩ := PoolM.faithful_addText hp₁ hd
  obtain ⟨hp₃, hg₃, hc⟩ := addCode_eq_ok hp₂ hc
  obtain ⟨hp₄, hg₄, he⟩ := PoolM.addUnless_eq_ok hp₃ he
  obtain ⟨hp₅, hg₅, ha⟩ := PoolM.addAnnotations_eq_ok hp₄ ha
  obtain ⟨hp₆, hg₆, hq⟩ := PoolM.addParameterAnnotations_eq_ok hp₅ hq
  have h₅ := hg₅.trans hg₆
  have h₄ := hg₄.trans h₅
  have h₃ := hg₃.trans h₄
  refine ⟨hp₆, hg₁.trans (hg₂.trans h₃), rfl, (hg₂.trans h₃).text hn, h₃.text hd, ?_⟩
  exact ⟨code, exceptions, annotations, parameterAnnotations, hc.grows h₄, he.grows h₅,
    ha.grows hg₆, hq, rfl⟩

/-! ### Taking in -/

theorem absorb_code (ha : a.Holds pool body) (hb : body.Fits) {f : MethodDraft}
    (hw : e.wrapCode pool body = .ok f) : absorb pool e a = .ok f := by
  rw [absorb, ha.name, Except.ok_bind, payload?_of_yields ha.name (CodeBody.yields_read hb ha.info)]
  exact hw

theorem absorb_exceptions {p : Exceptions} (ha : a.Holds pool p)
    (hc : ∀ i ∈ p.types, pool.checked .typeName i = .ok i) :
    absorb pool e a = .ok { e with exceptions := e.exceptions ++ p.types } := by
  have hcode : pool.payload? CodeBody a = .ok none := payload?_of_ne ha.name (by decide)
  have hm : p.types.mapM (pool.checked .typeName) = .ok (p.types.map id) :=
    Except.mapM_eq_ok_map hc
  rw [absorb, ha.name, Except.ok_bind, hcode, Except.ok_bind]
  dsimp only
  rw [payload?_of_yields ha.name (Exceptions.yields_read ha.info), Except.ok_bind]
  dsimp only
  rw [hm, List.map_id]
  rfl

theorem absorb_annotations
    (ha : a.Named pool (annotationNames ++ parameterAnnotationNames)) :
    absorb pool e a = .ok e := by
  have hn : a.Apart pool [Payload.name CodeBody, Payload.name Exceptions] :=
    ha.apart (by decide)
  obtain ⟨name, hm, hname⟩ := ha
  have hcode : pool.payload? CodeBody a = .ok none := hn.payload? (by simp)
  have hex : pool.payload? Exceptions a = .ok none := hn.payload? (by simp)
  rw [absorb, hname, Except.ok_bind, hcode, Except.ok_bind]
  dsimp only
  rw [hex, Except.ok_bind]
  dsimp only
  rw [if_pos (isAnnotationAttribute_iff.mpr hm)]
  rfl

theorem absorb_other (ha : a.Apart pool modelledNames) :
    absorb pool e a = .ok { e with attributes := e.attributes ++ [a] } := by
  have hcode : pool.payload? CodeBody a = .ok none := ha.payload? (by simp [modelledNames])
  have hex : pool.payload? Exceptions a = .ok none := ha.payload? (by simp [modelledNames])
  obtain ⟨name, hname, hn⟩ := ha
  have hk : ¬ isAnnotationAttribute name = true := by
    rw [isAnnotationAttribute_iff]
    exact fun hm => hn (List.mem_append_right _ hm)
  rw [absorb, hname, Except.ok_bind, hcode, Except.ok_bind]
  dsimp only
  rw [hex, Except.ok_bind]
  dsimp only
  rw [if_neg hk]
  rfl

theorem foldlM_absorb_other (ha : ∀ a ∈ attributes, a.Apart pool modelledNames) :
    attributes.foldlM (absorb pool) e =
      .ok { e with attributes := e.attributes ++ attributes } :=
  Except.foldlM_collect (g := fun attributes => { e with attributes }) fun a hm _ =>
    absorb_other (ha a hm)

theorem foldlM_absorb_code (hp : pool.Coherent) (h : StoresInstructions pool d attributes)
    (hk : Kept pool d) (ht : TablesFit d) (hf : FitsPool pool d) :
    attributes.foldlM (absorb pool) e =
      .ok (if d.instructions.isEmpty then e else e.withCodeOf d) := by
  unfold StoresInstructions at h
  split at h
  · rename_i he
    rw [h, if_pos he]
    rfl
  · rename_i he
    obtain ⟨a, body, rfl, ha, hs⟩ := h
    rw [if_neg he, List.foldlM_cons, absorb_code ha (fits_of_storesCode hp hs hk hf)
      (wrapCode_of_storesCode hs hk ht hf)]
    rfl

theorem foldlM_absorb_exceptions (hf : FitsPool pool d)
    (h : Attribute.HoldsUnless pool d.exceptions.isEmpty (Exceptions.mk d.exceptions) attributes) :
    attributes.foldlM (absorb pool) e =
      .ok { e with exceptions := e.exceptions ++ d.exceptions } := by
  refine h.foldlM_eq (fun a ha => absorb_exceptions ha hf.exceptions) fun hn => ?_
  rw [List.isEmpty_iff.mp hn, List.append_nil]

/-- The draft as it is before any of the attributes is taken in. -/
def bare (d : MethodDraft) : MethodDraft :=
  { d.dropCode with
    exceptions := [], annotations := [], parameterAnnotations := [], attributes := [] }

theorem foldlM_absorb (hp : pool.Coherent) (hs : Stores pool d r) (hk : Kept pool d)
    (ht : TablesFit d) (hf : FitsPool pool d)
    (ha : ∀ a ∈ d.attributes, a.Apart pool modelledNames) :
    r.attributes.foldlM (absorb pool) d.bare = .ok
      { if d.instructions.isEmpty then d.dropCode else d.withCodeOf d with
        annotations := [], parameterAnnotations := [] } := by
  obtain ⟨code, exceptions, annotations, parameterAnnotations, hc, he, hu, hq, hr⟩ := hs.attributes
  have hu : ∀ e, annotations.foldlM (absorb pool) e = .ok e := fun e =>
    Except.foldlM_eq_self fun a ha =>
      absorb_annotations ((hu.named a ha).mono fun _ => List.mem_append_left _)
  have hq : ∀ e, parameterAnnotations.foldlM (absorb pool) e = .ok e := fun e =>
    Except.foldlM_eq_self fun a ha =>
      absorb_annotations ((hq.named a ha).mono fun _ => List.mem_append_right _)
  rw [hr, List.foldlM_append, List.foldlM_append, List.foldlM_append, List.foldlM_append,
    foldlM_absorb_code hp hc hk ht hf, Except.ok_bind, foldlM_absorb_exceptions hf he,
    Except.ok_bind, foldlM_absorb_other ha, Except.ok_bind, hu, Except.ok_bind, hq]
  cases d.instructions.isEmpty <;> rfl

/-- Everything that was stored is found again. -/
theorem ofMethod_of_stores (hp : pool.Coherent) (hs : Stores pool d r) (hk : Kept pool d)
    (ht : TablesFit d) (hf : FitsPool pool d)
    (ha : ∀ a ∈ d.attributes, a.Apart pool modelledNames)
    (hd : MethodDescriptor.parse d.descriptor.describe = .ok d.descriptor) :
    ofMethod pool d.owner r = .ok d.restored := by
  have hfold := foldlM_absorb hp hs hk ht hf ha
  obtain ⟨code, exceptions, annotations, parameterAnnotations, hc, he, hu, hq, hr⟩ := hs.attributes
  have hothers : ∀ a ∈ code ++ exceptions ++ d.attributes,
      a.Apart pool (annotationNames ++ parameterAnnotationNames) := by
    intro a h
    rw [List.mem_append, List.mem_append] at h
    rcases h with (h | h) | h
    · exact ⟨_, hc.name h, by decide⟩
    · exact ⟨_, he.name h, by decide⟩
    · exact (ha a h).mono fun _ => List.mem_append_right _
  have hann : pool.annotations r.attributes = .ok (byVisibility d.annotations) := by
    rw [hr]
    refine annotations_eq (fun a h => (hothers a h).mono ?_) hu (fun a h => ?_) hf.annotations
    · exact fun _ => List.mem_append_left _
    · exact (hq.named a h).apart (by decide)
  have hpar : pool.parameterAnnotations r.attributes =
      .ok (parametersByVisibility d.parameterAnnotations) := by
    rw [hr]
    refine parameterAnnotations_eq (fun a h => ?_) hq hf.parameterAnnotations
    rcases List.mem_append.mp h with h | h
    · exact (hothers a h).mono fun _ => List.mem_append_right _
    · exact (hu.named a h).apart (by decide)
  have hmake : make r.flags d.name d.descriptor.describe d.owner = .ok d.bare := by
    rw [make, hd, hs.flags]
    rfl
  rw [ofMethod, hs.name, Except.ok_bind, hs.descriptor, Except.ok_bind, hmake]
  dsimp only
  rw [hfold, Except.ok_bind, hann, Except.ok_bind, hpar]
  rfl

end MethodDraft

end Classfile
