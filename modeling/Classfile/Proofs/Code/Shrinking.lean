import Classfile.Proofs.Code.Extent
import Classfile.Proofs.Code.Minimal
import Classfile.Proofs.Code.Rewriting

/-!
Writing code again that was read, when there are no switches in it. Every instruction is written in
a form that is not longer than the one it was read in, and how long it is does not depend on where
it stands. So instructions only move closer together, and every target that was in reach still is.
-/
namespace Classfile

open Instruction InstructionSeq Layout

namespace Instruction

variable {τ σ ε : Type} {i : Instruction τ} {j : Instruction σ} {f : τ → Except ε σ} {n : Nat}

theorem lengthAt_resolve (h : i.resolve f = .ok j) : j.lengthAt n = i.lengthAt n := by
  cases i with
  | branch _ target | jump _ target | wideJump _ target =>
    obtain ⟨u, -, rfl⟩ := Except.map_eq_ok.mp h
    rfl
  | tableSwitch default low cases | lookupSwitch default cases =>
    obtain ⟨u, -, h⟩ := Except.bind_eq_ok.mp h
    obtain ⟨us, hus, rfl⟩ := Except.map_eq_ok.mp h
    simp only [lengthAt, Except.mapM_length hus]
  | _ => cases h; rfl

theorem narrowTarget?_resolve (h : i.resolve f = .ok j) :
    ∀ u ∈ j.narrowTarget?, ∃ t ∈ i.narrowTarget?, f t = .ok u := by
  intro u hu
  cases i with
  | branch _ target | jump _ target =>
    obtain ⟨v, hv, rfl⟩ := Except.map_eq_ok.mp h
    cases hu
    exact ⟨target, rfl, hv⟩
  | wideJump _ target =>
    obtain ⟨v, -, rfl⟩ := Except.map_eq_ok.mp h
    cases hu
  | tableSwitch default low cases | lookupSwitch default cases =>
    obtain ⟨v, -, h⟩ := Except.bind_eq_ok.mp h
    obtain ⟨vs, -, rfl⟩ := Except.map_eq_ok.mp h
    cases hu
  | _ => cases h; cases hu

end Instruction

variable {pool : ConstantPool} {code : List UInt8} {d : DecodedCode} {h : Handle}
  {i : Instruction Handle} {n m : Nat}

namespace DecodedCode

/-- What is known of an instruction that was read: it fills the bytes up to the next one, and its
targets are those of the offsets that were read. -/
theorem exists_fills (hd : decodeCode pool code = .ok d)
    (hi : d.instructions.toList[n]? = some (h, i)) : ∃ start size j,
      d.offsets[n]? = some (start, h) ∧ d.startAt code.length (n + 1) = start + size ∧
        Fills start size j ∧ j.resolve (resolveTarget d.offsets start) = .ok i := by
  obtain ⟨items, start, j, hread, hn, hstart, he, hr⟩ := exists_item hd hi
  obtain ⟨size, hsize, hfills⟩ := (reads_readAll hread).fills hn
  refine ⟨start, size, j, hstart, ?_, hfills, hr⟩
  rw [← hsize, Nat.zero_add, startAt, he, startsOf_map_fst]

theorem startAt_zero (hd : decodeCode pool code = .ok d) : d.startAt code.length 0 = 0 := by
  obtain ⟨items, instructions, hread, -, rfl⟩ := decodeCode_eq_ok.mp hd
  rw [startAt, startsOf_map_fst]
  cases reads_readAll hread <;> rfl

theorem startAt_length (hd : decodeCode pool code = .ok d) :
    d.startAt code.length d.instructions.toList.length = code.length := by
  have hl := congrArg List.length (offsets_map_snd hd)
  rw [List.length_map, handles, List.length_map, Array.length_toList] at hl
  rw [startAt, Array.getElem?_eq_none (Nat.le_of_eq hl)]
  rfl

/-- Two instructions are written no farther apart than they were read. -/
theorem startAt_closer (hd : decodeCode pool code = .ok d) (hf : d.instructions.SwitchFree)
    (hn : n ≤ m) (hm : m ≤ d.instructions.toList.length) :
    d.instructions.startAt ∅ m + d.startAt code.length n ≤
      d.startAt code.length m + d.instructions.startAt ∅ n := by
  induction m, hn using Nat.le_induction with
  | base => exact Nat.le_of_eq (Nat.add_comm _ _)
  | succ m hn ih =>
    obtain ⟨⟨h, i⟩, hi⟩ : ∃ item, d.instructions.toList[m]? = some item :=
      ⟨_, List.getElem?_eq_getElem hm⟩
    obtain ⟨start, size, j, hstart, hend, hfills, hr⟩ := exists_fills hd hi
    have hswitch : i.isSwitch = false := hf (h, i) (List.mem_of_getElem? hi)
    have hlen : i.lengthAt (d.instructions.startAt ∅ m) ≤ size := by
      rw [lengthAt_eq hswitch _ start, lengthAt_resolve hr]
      exact hfills.length
    have hread : d.startAt code.length m = start := by
      rw [startAt, hstart]
      rfl
    have hle := ih (Nat.le_of_succ_le hm)
    rw [startAt_succ hi, if_neg (by simp), hend]
    omega

/-- From one instruction to another it goes the same way as it did when they were read, and no
farther. -/
theorem startAt_between (hd : decodeCode pool code = .ok d) (hf : d.instructions.SwitchFree)
    (hn : n ≤ d.instructions.toList.length) (hm : m ≤ d.instructions.toList.length) :
    let written : Int := d.instructions.startAt ∅ m - d.instructions.startAt ∅ n
    let read : Int := d.startAt code.length m - d.startAt code.length n
    (0 ≤ written ∧ written ≤ read) ∨ (read ≤ written ∧ written ≤ 0) := by
  intro written read
  rcases Nat.le_total n m with hle | hle
  · have hcloser := startAt_closer hd hf hle hm
    have hwritten : d.instructions.startAt ∅ n ≤ d.instructions.startAt ∅ m :=
      InstructionSeq.startAt_le hle hm
    exact .inl ⟨by omega, by omega⟩
  · have hcloser := startAt_closer hd hf hle hn
    have hwritten : d.instructions.startAt ∅ m ≤ d.instructions.startAt ∅ n :=
      InstructionSeq.startAt_le hle hn
    exact .inr ⟨by omega, by omega⟩

theorem startAt_le (hd : decodeCode pool code = .ok d) (hf : d.instructions.SwitchFree)
    (hn : n ≤ d.instructions.toList.length) :
    d.instructions.startAt ∅ n ≤ d.startAt code.length n := by
  have hcloser := startAt_closer hd hf (Nat.zero_le n) hn
  rwa [startAt_zero hd, InstructionSeq.startAt_zero] at hcloser

theorem startAt_eq {length o : Nat} (hn : d.offsets[n]? = some (o, h)) :
    d.startAt length n = o := by
  rw [startAt, hn]
  rfl

theorem Sound.exists_position (hs : d.Sound pool) (length : Nat) {x : Nat × Handle}
    (hx : x ∈ d.offsets.toList) : ∃ n ≤ d.instructions.toList.length,
      d.instructions.position? x.2 = some n ∧ d.startAt length n = x.1 := by
  obtain ⟨n, hn⟩ := List.getElem?_of_mem hx
  rw [Array.getElem?_toList] at hn
  have hp := hs.position hn
  exact ⟨n, Nat.le_of_lt (take_of_position? hp).1, hp, startAt_eq hn⟩

/-- What was read in a short form reaches its target in that form when nothing is widened. -/
theorem near_of_narrowTarget? (hd : decodeCode pool code = .ok d) (hs : d.Sound pool)
    (hf : d.instructions.SwitchFree) (hm : (h, i) ∈ d.instructions.toList) {target : Handle}
    (ht : target ∈ i.narrowTarget?) : Near ((widening d.instructions ∅).destination target -
      (widening d.instructions ∅).destination h) := by
  obtain ⟨n, hi⟩ := List.getElem?_of_mem hm
  obtain ⟨start, size, j, hstart, -, hfills, hr⟩ := exists_fills hd hi
  obtain ⟨offset, hoffset, hres⟩ := narrowTarget?_resolve hr target ht
  obtain ⟨hmem, hpos⟩ := mem_of_resolveTarget hres
  obtain ⟨m, hml, hq, hread⟩ := hs.exists_position code.length hmem
  have hp := hs.position hstart
  have hnl := Nat.le_of_lt (take_of_position? hp).1
  have hbetween := startAt_between hd hf hnl hml
  have hnear := hfills.near offset hoffset
  rw [hread, startAt_eq hstart, Int.toNat_of_nonneg hpos] at hbetween
  rw [destination_of_position? hs.linked hp, destination_of_position? hs.linked hq]
  unfold Near at hnear ⊢
  omega

theorem layout_eq (hd : decodeCode pool code = .ok d) (hs : d.Sound pool)
    (hf : d.instructions.SwitchFree) :
    d.instructions.layout = widening d.instructions ∅ := by
  refine settle_of_oversized _ (List.eq_nil_iff_forall_not_mem.mpr fun h hh => ?_)
  obtain ⟨kind, target, hm, -, hfar⟩ := (mem_oversized hs.linked).mp hh
  exact hfar (near_of_narrowTarget? hd hs hf hm rfl)

/-- Nothing is in the way of writing what was read. It has the length of the layout, and has become
no longer. -/
theorem exists_encode (hd : decodeCode pool code = .ok d) (hs : d.Sound pool)
    (hc : code.length ≤ maxCodeLength) (hf : d.instructions.SwitchFree) :
    ∃ bytes, d.instructions.encode = .ok bytes ∧
      bytes.length = d.instructions.layout.codeLength ∧ bytes.length ≤ code.length := by
  have hl := layout_eq hd hs hf
  have hlen := startAt_le hd hf (Nat.le_refl _)
  rw [startAt_length hd] at hlen
  have hexists : ∃ bytes, d.instructions.encode = .ok bytes := by
    refine (exists_encode_decoded hd hc).mpr ⟨?_, ?_, ?_⟩
    · rw [hl, ← InstructionSeq.startAt_length]
      exact Nat.le_trans hlen hc
    · intro h condition target hm
      rw [InstructionSeq.distance, hl]
      exact near_of_narrowTarget? hd hs hf hm rfl
    · intro h default cases hm
      cases hf _ hm
  obtain ⟨bytes, hb⟩ := hexists
  obtain ⟨hlength, -⟩ :=
    length_encode hs.linked hl (fun _ hh => absurd hh Std.HashSet.not_mem_empty) hb
  refine ⟨bytes, hb, ?_, hlength ▸ hlen⟩
  rw [hlength, InstructionSeq.startAt_length, hl]

/-- Code without switches that was read can be written. It has the length of its layout then, and is
not longer than it was. No jump is widened, no instruction starts behind where it was read, and no
two of them are farther apart. -/
theorem encode_shrinks (hd : decodeCode pool code = .ok d) (hc : code.length ≤ maxCodeLength)
    (hf : d.instructions.SwitchFree) :
    (∃ bytes, d.instructions.encode = .ok bytes ∧
      bytes.length = d.instructions.layout.codeLength ∧ bytes.length ≤ code.length) ∧
    (∀ h, d.instructions.layout.isWidened h = false) ∧
    d.offsets.toList.map (·.2) = d.instructions.handles ∧
    (∀ x ∈ d.offsets.toList, ∃ offset, d.instructions.layout.offsetOf? x.2 = some offset ∧
      offset ≤ x.1) ∧
    ∀ x ∈ d.offsets.toList, ∀ y ∈ d.offsets.toList,
      (d.instructions.distance x.2 y.2).natAbs ≤ ((y.1 : Int) - x.1).natAbs := by
  have hs : d.Sound pool := by
    apply sound_decodeCode hd
    rw [maxCodeLength] at hc
    omega
  have hl := layout_eq hd hs hf
  refine ⟨exists_encode hd hs hc hf, fun h => ?_, offsets_map_snd hd, fun x hx => ?_,
    fun x hx y hy => ?_⟩
  · refine Bool.eq_false_iff.mpr fun hw => ?_
    rw [hl] at hw
    obtain ⟨xs, i, ys, hsplit⟩ := exists_split (live_of_isWidened hs.linked hw)
    rw [widening_isWidened ∅ hs.linked hsplit, Std.HashSet.contains_empty] at hw
    cases hw
  · obtain ⟨n, hn, hp, hread⟩ := hs.exists_position code.length hx
    rw [hl, offsetOf?_of_position? hs.linked hp, ← hread]
    exact ⟨_, rfl, startAt_le hd hf hn⟩
  · obtain ⟨n, hn, hp, hread⟩ := hs.exists_position code.length hx
    obtain ⟨m, hm, hq, hread'⟩ := hs.exists_position code.length hy
    have hbetween := startAt_between hd hf hn hm
    rw [InstructionSeq.distance, hl, destination_of_position? hs.linked hp,
      destination_of_position? hs.linked hq, ← hread, ← hread']
    omega

/-- A load in its wide form, and a jump back to it. -/
def slackCode : List UInt8 := [0xc4, 0x15, 0, 1, 0x57, 0xa7, 0xff, 0xfb]

theorem encode_shrinks_slack : ∃ d, decodeCode .empty slackCode = .ok d ∧
    slackCode.length ≤ maxCodeLength ∧ d.instructions.SwitchFree ∧
    ∃ bytes, d.instructions.encode = .ok bytes ∧
      bytes.length = d.instructions.layout.codeLength ∧ bytes.length ≤ slackCode.length := by
  have hd : decodeCode .empty slackCode = .ok ⟨⟨#[(⟨0, 0⟩, .load .int 1), (⟨1, 0⟩, .simple .pop),
    (⟨2, 0⟩, .jump .goto ⟨0, 0⟩)], #[⟨0, true⟩, ⟨0, true⟩, ⟨0, true⟩], []⟩,
      #[(0, ⟨0, 0⟩), (4, ⟨1, 0⟩), (5, ⟨2, 0⟩)]⟩ := rfl
  have hc : slackCode.length ≤ maxCodeLength := by decide
  have hf : ∀ item ∈ [((⟨0, 0⟩ : Handle), (Instruction.load .int 1 : Instruction Handle)),
      (⟨1, 0⟩, .simple .pop), (⟨2, 0⟩, .jump .goto ⟨0, 0⟩)], item.2.isSwitch = false := by decide
  exact ⟨_, hd, hc, hf, (encode_shrinks hd hc hf).1⟩

end DecodedCode

end Classfile
