import Classfile.Proofs.Code.Acceptance
import Classfile.Proofs.Code.Decoded
import Classfile.Proofs.Code.Reencoding

/-!
Writing code again that was read. It was written in other forms before, perhaps, so that branches
can get out of reach and jumps be widened; and the keys of a switch are not compared before it is
written.
-/
namespace Classfile

open Instruction InstructionSeq

variable {pool : ConstantPool} {code : List UInt8} {d : DecodedCode}

/-- Code that was read can be written if it does not become too long, no branch gets out of reach
and no lookup switch has a key twice. Nothing else can go wrong. -/
theorem exists_encode_decoded (hd : decodeCode pool code = .ok d)
    (hc : code.length ≤ maxCodeLength) : (∃ bytes, d.instructions.encode = .ok bytes) ↔
      d.instructions.layout.codeLength ≤ maxCodeLength ∧
      (∀ h condition target, (h, .branch condition target) ∈ d.instructions.toList →
        Near (d.instructions.distance h target)) ∧
      ∀ h default cases, (h, .lookupSwitch default cases) ∈ d.instructions.toList →
        (cases.map (·.1)).Nodup := by
  have hs : d.Sound pool := by
    apply sound_decodeCode hd
    rw [maxCodeLength] at hc
    omega
  rw [exists_encode hs.linked]
  apply and_congr_right
  intro _
  constructor
  · intro hw
    exact ⟨fun h condition target hm => hw _ hm, fun h default cases hm => hw _ hm⟩
  · rintro ⟨hnear, hkeys⟩ ⟨h, i⟩ hm
    cases i with
    | branch condition target => exact hnear h condition target hm
    | lookupSwitch default cases => exact hkeys h default cases hm
    | tableSwitch default low cases => exact (hs.readable _ hm).bounded
    | _ => trivial

/-- A switch with the keys 7 and another one, before a return to which it always goes. -/
def selector (key : Int32) : InstructionSeq :=
  ⟨#[(⟨0, 0⟩, .lookupSwitch ⟨1, 0⟩ [(7, ⟨1, 0⟩), (key, ⟨1, 0⟩)]), (⟨1, 0⟩, .simple .returnVoid)],
    #[⟨0, true⟩, ⟨0, true⟩], []⟩

def selectorCode (key : UInt8) : List UInt8 :=
  [0xab, 0, 0, 0, 0, 0, 0, 28, 0, 0, 0, 2, 0, 0, 0, 7, 0, 0, 0, 28, 0, 0, 0, key, 0, 0, 0, 28, 0xb1]

theorem selector_layout (key : Int32) : (selector key).layout = Layout.widening (selector key) ∅ :=
  rfl

theorem selector_codeLength (key : Int32) : (selector key).layout.codeLength = 29 := by
  rw [selector_layout, Layout.codeLength, Layout.widening_table, Layout.contains_empty]
  rfl

theorem exists_encode_decoded_distinct : ∃ d, decodeCode .empty (selectorCode 8) = .ok d ∧
    (selectorCode 8).length ≤ maxCodeLength ∧ ∃ bytes, d.instructions.encode = .ok bytes := by
  have hd : decodeCode .empty (selectorCode 8) =
    .ok ⟨selector 8, #[(0, ⟨0, 0⟩), (28, ⟨1, 0⟩)]⟩ := rfl
  have hc : (selectorCode 8).length ≤ maxCodeLength := by decide
  refine ⟨_, hd, hc, (exists_encode_decoded hd hc).mpr ⟨?_, ?_, ?_⟩⟩
  · rw [selector_codeLength]
    decide
  · intro h condition target hm
    simp [selector, toList] at hm
  · intro h default cases hm
    obtain ⟨rfl, rfl, rfl⟩ : h = ⟨0, 0⟩ ∧ default = ⟨1, 0⟩ ∧
      cases = [(7, ⟨1, 0⟩), (8, ⟨1, 0⟩)] := by simpa [selector, toList] using hm
    decide

/-- A switch that has a key twice is read, but it cannot be written. -/
theorem decodeCode_repeated : ∃ d, decodeCode .empty (selectorCode 7) = .ok d ∧
    d.instructions.encode = .error (.malformedCode 0 (.repeatedKey 7)) := by
  have hd : decodeCode .empty (selectorCode 7) =
    .ok ⟨selector 7, #[(0, ⟨0, 0⟩), (28, ⟨1, 0⟩)]⟩ := rfl
  refine ⟨_, hd, ?_⟩
  have hsort : sortCases [((7 : Int32), (⟨1, 0⟩ : Handle)), (7, ⟨1, 0⟩)] =
      [(7, ⟨1, 0⟩), (7, ⟨1, 0⟩)] := List.mergeSort_of_pairwise (by decide)
  rw [encode, encodeIn, selector_codeLength, if_neg (by decide), selector_layout,
    Layout.widening_zip, Layout.contains_empty]
  simp only [selector, toList, Layout.rows, List.mapM_cons, Instruction.bytes, hsort, repeatedKey?]
  rfl

end Classfile
