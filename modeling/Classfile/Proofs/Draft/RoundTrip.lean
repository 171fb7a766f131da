import Classfile.Proofs.Code.Acceptance
import Classfile.Proofs.Code.Reencoding
import Classfile.Proofs.Draft.Additions
import Classfile.Proofs.Draft.Buildable
import Classfile.Proofs.Draft.Reachable

/-!
Making a draft of a built method undoes the building. The draft has new handles for its
instructions, so what is the same is what it says by position.
-/
namespace Classfile

open InstructionSeq ConstantPool

variable {pool pool' : ConstantPool} {d e : MethodDraft} {r : Method}

namespace MethodDraft

/-- The draft `e` says of a method what `d` says. The instruction at a position stands at the same
position in `e`, in its settled form; the tables refer to the same positions; and the visible
annotations come before the others. -/
structure Mirrors (d e : MethodDraft) : Prop where
  flags : e.flags = d.flags
  name : e.name = d.name
  descriptor : e.descriptor = d.descriptor
  owner : e.owner = d.owner
  maxStack : e.maxStack = d.maxStack
  maxLocals : e.maxLocals = d.maxLocals
  size : e.instructions.size = d.instructions.size
  instructions : ∀ k h i, d.instructions.items[k]? = some (h, i) →
    d.instructions.renumber h = handleOf k ∧ e.instructions.items[k]? = some (handleOf k,
      (i.settled (d.instructions.layout.isWidened h)).mapTargets d.instructions.renumber)
  handlers : e.handlers = d.handlers.map (·.relocate d.instructions.renumber)
  lines : e.lines = d.lines.map fun line => (d.instructions.renumber line.1, line.2)
  scopes : e.scopes = d.scopes.map (·.relocate d.instructions.renumber)
  typeScopes : e.typeScopes = d.typeScopes.map (·.relocate d.instructions.renumber)
  exceptions : e.exceptions = d.exceptions
  annotations : e.annotations = byVisibility d.annotations
  parameterAnnotations : e.parameterAnnotations = parametersByVisibility d.parameterAnnotations
  attributes : e.attributes = d.attributes
  codeAttributes : e.codeAttributes = d.codeAttributes

theorem mirrors_restored (hk : Kept pool d) (he : d.instructions.isEmpty = false) :
    d.Mirrors d.restored := by
  rw [restored, he, if_neg (by simp)]
  exact {
    flags := rfl
    name := rfl
    descriptor := rfl
    owner := rfl
    maxStack := rfl
    maxLocals := rfl
    size := size_readBack
    instructions := fun k h i hi => getElem?_items_readBack hk.linked hi
    handlers := rfl
    lines := by simp [withCodeOf, ← Array.toList_map]
    scopes := rfl
    typeScopes := rfl
    exceptions := rfl
    annotations := rfl
    parameterAnnotations := rfl
    attributes := rfl
    codeAttributes := rfl }

/-- A built method has a draft, which says what the draft said that it was built from. -/
theorem ofMethod_build {text : String} (hd : Reachable pool d)
    (he : d.instructions.isEmpty = false)
    (hdesc : MethodDescriptor.parse text = .ok d.descriptor) (ht : TablesFit d)
    (ha : ∀ a ∈ d.attributes, ∀ name, pool.attributeName a = .ok name → name ∉ modelledNames)
    (hf : FitsPool pool d) (h : d.build pool = .ok r pool') :
    ∃ e, ofMethod pool' d.owner r = .ok e ∧ d.Mirrors e := by
  obtain ⟨hp, hk⟩ := hd.kept
  obtain ⟨-, hg, hs⟩ := stores_of_build hp.faithful h
  have hp' : pool'.Coherent := (maintains_build PoolM.maintains_coherent d).of_ok h hp
  have hparse : MethodDescriptor.parse d.descriptor.describe = .ok d.descriptor := by
    rw [MethodDescriptor.describe_parse hdesc, hdesc]
  have hapart : ∀ a ∈ d.attributes, a.Apart pool' modelledNames := by
    intro a hm
    obtain ⟨name, hn⟩ := hk.attributes a hm
    exact ⟨name, hg.text hn, ha a hm name hn⟩
  exact ⟨d.restored, ofMethod_of_stores hp' hs (hk.grows hg) ht (hf.grows hg) hapart hparse,
    mirrors_restored hk he⟩

/-- What the instructions and the tables of a method refer to. -/
def catchingConstants : List Constant :=
  [.utf8 "E", .typeName ⟨1⟩, .utf8 "x", .utf8 "I", .utf8 "LA;", .integer 5]

/-- A number is stored in a variable. An exception that comes in between is dropped. -/
def catchingCode : InstructionSeq :=
  ofList [.constant ⟨6⟩, .store .int 1, .simple .returnVoid, .simple .pop, .simple .returnVoid]

/-- A method with entries in its tables, an exception, and annotations of both visibilities. -/
def catching : MethodDraft :=
  { flags := .ofBits .method 0x0009, name := "f", descriptor := ⟨[.base .int], none⟩, owner := "C"
    instructions := catchingCode, maxStack := 1, maxLocals := 2
    handlers := [⟨⟨0, 0⟩, ⟨1, 0⟩, ⟨3, 0⟩, some ⟨2⟩⟩], lines := #[(⟨0, 0⟩, 7), (⟨3, 0⟩, 9)]
    scopes := [⟨⟨2, 0⟩, ⟨2, 0⟩, ⟨3⟩, ⟨4⟩, 1⟩], typeScopes := [], exceptions := [⟨2⟩]
    annotations := [⟨⟨⟨5⟩, []⟩, false⟩, ⟨⟨⟨5⟩, []⟩, true⟩]
    parameterAnnotations := [[⟨⟨⟨5⟩, []⟩, true⟩]], attributes := [], codeAttributes := [] }

theorem catchingCode_reachable : catchingCode.Reachable :=
  reachable_ofList (by decide) (by simp [Instruction.targets])

theorem catching_reachable (hs : ofTable (WidthTable.ofList 1 catchingConstants) = .ok pool) :
    Reachable pool catching := by
  obtain ⟨-, hp, -⟩ := ofTable_eq_ok hs
  have hname : PoolM.addText "x" pool = .ok ⟨3⟩ pool :=
    PoolM.add_of_ofTable hs (by rw [hp]; rfl)
  have hdescriptor : PoolM.addText "I" pool = .ok ⟨4⟩ pool :=
    PoolM.add_of_ofTable hs (by rw [hp]; rfl)
  have htype : PoolM.addTypeName "E" pool = .ok ⟨2⟩ pool := EStateM.bind_eq_ok.mpr ⟨⟨1⟩, pool,
    PoolM.add_of_ofTable hs (by rw [hp]; rfl), PoolM.add_of_ofTable hs (by rw [hp]; rfl)⟩
  have hmade : make (.ofBits .method 0x0009) "f" "(I)V" "C" = .ok
      { catching with
        instructions := .empty, maxStack := 0, maxLocals := 0, handlers := [], lines := #[]
        scopes := [], exceptions := [], annotations := [], parameterAnnotations := [] } := rfl
  have h₀ : Reachable pool { catching with
      handlers := [], lines := #[], scopes := [], exceptions := [], annotations := []
      parameterAnnotations := [] } :=
    ((Reachable.make (.ofTable hs) hmade).assign catching.flags "f" catching.descriptor "C" 1
      2).assignInstructions catchingCode_reachable
  have h₁ : Reachable pool { catching with
      lines := #[], scopes := [], exceptions := [], annotations := []
      parameterAnnotations := [] } :=
    h₀.perform (a := .addHandler ⟨⟨0, 0⟩, ⟨1, 0⟩, ⟨3, 0⟩, some ⟨2⟩⟩) rfl
  have h₂ : Reachable pool { catching with
      scopes := [], exceptions := [], annotations := [], parameterAnnotations := [] } :=
    (h₁.perform (a := .addLine ⟨0, 0⟩ 7) rfl).perform (a := .addLine ⟨3, 0⟩ 9) rfl
  have h₃ : Reachable pool { catching with
      exceptions := [], annotations := [], parameterAnnotations := [] } :=
    h₂.perform (a := .addScope "x" "I" 1 ⟨2, 0⟩ ⟨2, 0⟩) (MethodM.addScope_eq_ok.mpr
      ⟨rfl, ⟨3⟩, pool, hname, ⟨4⟩, pool, hdescriptor, rfl⟩)
  have h₄ : Reachable pool { catching with annotations := [], parameterAnnotations := [] } :=
    h₃.perform (a := .addException "E") (MethodM.addException_eq_ok.mpr ⟨⟨2⟩, pool, htype, rfl⟩)
  have h₅ : Reachable pool { catching with annotations := [] } :=
    h₄.perform (a := Act.addParameterAnnotation 0 ⟨⟨⟨5⟩, []⟩, true⟩) rfl
  have h₆ : Reachable pool { catching with annotations := [⟨⟨⟨5⟩, []⟩, false⟩] } :=
    Reachable.addAnnotation ⟨⟨⟨5⟩, []⟩, false⟩ h₅
  exact Reachable.addAnnotation ⟨⟨⟨5⟩, []⟩, true⟩ h₆

theorem tablesFit_catching : TablesFit catching := by
  have hp : ∀ {h i k}, catchingCode.toList[k]? = some (h, i) → catchingCode.position? h = some k :=
    position?_of_getElem? catchingCode_reachable.linked
  refine ⟨List.forall_mem_singleton.mpr ⟨⟨0, 1, hp rfl, hp rfl, by decide⟩, rfl⟩, ?_,
    List.forall_mem_singleton.mpr ⟨2, 2, hp rfl, hp rfl, by decide⟩⟩
  exact List.forall_mem_cons.mpr ⟨rfl, List.forall_mem_singleton.mpr rfl⟩

theorem fitsPool_catching (hs : ofTable (WidthTable.ofList 1 catchingConstants) = .ok pool) :
    FitsPool pool catching := by
  obtain ⟨-, rfl, -⟩ := ofTable_eq_ok hs
  refine ⟨List.forall_mem_cons.mpr ⟨?_, ?_⟩, List.forall_mem_singleton.mpr ?_,
    List.forall_mem_singleton.mpr rfl, ?_, List.forall_mem_singleton.mpr rfl⟩
  · intro operand ho
    cases ho
    rfl
  · -- Only the first instruction has a constant.
    have hnone : ∀ item ∈ catchingCode.toList.tail, item.2.operand? = none := by decide
    intro item hm operand ho
    cases (hnone item hm).symm.trans ho
  · intro i hi
    cases hi
    rfl
  · exact List.forall_mem_cons.mpr ⟨rfl, List.forall_mem_singleton.mpr rfl⟩

theorem countsFit_catching : CountsFit catching := by
  have hb : ( Annotation.mk ⟨5⟩ []).Bounded := ⟨Nat.zero_le _, nofun⟩
  constructor <;> simp [catching, hb]

/-- The method is stored, and read again it says the same. -/
theorem ofMethod_build_catching : ∃ pool r pool',
    ofTable (WidthTable.ofList 1 catchingConstants) = .ok pool ∧ Reachable pool catching ∧
    catching.build pool = .ok r pool' ∧
    ∃ e, ofMethod pool' "C" r = .ok e ∧ catching.Mirrors e := by
  obtain ⟨pool, hs⟩ : ∃ pool, ofTable (WidthTable.ofList 1 catchingConstants) = .ok pool := ⟨_, rfl⟩
  have hx : pool.extent = 7 := by
    obtain ⟨-, rfl, -⟩ := ofTable_eq_ok hs
    rfl
  have hd := catching_reachable hs
  obtain ⟨hp, hk⟩ := hd.kept
  obtain ⟨code, he⟩ : ∃ code, catchingCode.encode = .ok code :=
    exists_encode_of_targetless catchingCode_reachable.linked (by decide) (by decide)
  obtain ⟨r, pool', h⟩ :=
    exists_build hp.faithful hk he tablesFit_catching.live countsFit_catching (by rw [hx]; decide)
  have hdesc : MethodDescriptor.parse "(I)V" = .ok catching.descriptor := rfl
  exact ⟨pool, r, pool', hs, hd, h,
    ofMethod_build hd rfl hdesc tablesFit_catching nofun (fitsPool_catching hs) h⟩

end MethodDraft

end Classfile
