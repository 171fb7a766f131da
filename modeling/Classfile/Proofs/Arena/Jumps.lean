import Classfile.Proofs.Arena.Patching
import Classfile.Proofs.Code.Anchored
import Classfile.Proofs.Code.Steady

/-!
Jumps land on instructions, from the moment at which code has been read and through every run of
edits.
-/
namespace Classfile.InstructionSeq

variable {s : InstructionSeq} {h : Handle} {i : Instruction Handle} {make : ArenaM Unit}
  {start : InstructionSeq} {edits : List Edit}

/-- Where runs of edits begin, and how the arena is made from the empty one. -/
inductive Origin : ArenaM Unit → InstructionSeq → Prop
  | empty : Origin (pure ()) empty
  | decoded {pool : ConstantPool} {code : List UInt8} {d : DecodedCode}
    (h : decodeCode pool code = .ok d) : Origin (discard (ArenaM.decode pool code)) d.instructions

theorem Origin.anchored (ho : Origin make start) : start.Anchored 0 := by
  cases ho with
  | empty => exact anchored_empty
  | decoded h =>
    obtain ⟨instructions, hd, ht⟩ := targets_decodeCode h
    rw [hd]
    exact anchored_ofList ht

theorem Origin.represents (ho : Origin make start) (hc : start.slots.size ≤ UInt32.size) :
    start.Linked ∧ ∃ a, make .empty = .ok () a ∧ a.Represents start := by
  cases ho with
  | empty => exact ⟨linked_empty, _, rfl, Arena.represents_empty⟩
  | @decoded pool code d h =>
    refine ⟨linked_decodeCode h hc, ?_⟩
    have hlen : ∀ items, Instruction.readAll pool code = .ok items →
        items.length ≤ UInt32.size := by
      intro items hi
      obtain ⟨items', instructions, hi', hr, rfl⟩ := decodeCode_eq_ok.mp h
      rw [hi] at hi'
      cases hi'
      rw [← Except.mapM_length hr]
      simpa [ofList] using hc
    have hd := ArenaM.ends_decode hlen
    rw [h] at hd
    obtain ⟨offsets, a, ha, -, hr⟩ := hd
    exact ⟨a, EStateM.bind_of_ok ha, hr⟩

theorem mem_of_get? (hg : s.get? h = some i) : s.contains h ∧ (h, i) ∈ s.toList := by
  obtain ⟨n, hp, hg⟩ := Option.bind_eq_some_iff.mp hg
  obtain ⟨hc, xs, j, ys, hl, -, hn⟩ := split_of_position? hp
  rw [hn] at hg
  cases hg
  exact ⟨hc, by simp [hl]⟩

/-- As long as there are fewer slots than handles can name, none of them is the last one. -/
theorem ne_unresolved (hc : s.contains h) (hs : s.slots.size < 2 ^ 32) : h ≠ .unresolved := by
  rintro rfl
  have hb := (Array.getElem?_eq_some_iff.mp (contains_iff.mp hc)).1
  have hi : Handle.unresolved.index.toNat = 2 ^ 32 - 1 := rfl
  omega

/-- Every target of an instruction is an instruction, whatever was edited and whether it succeeded
or not. Hence code is never laid out in vain for the sake of a target, and of the handles that jumps
had while the code was read none is left. -/
theorem jumps_land (ho : Origin make start) (hr : start.removals edits < 2 ^ 32) :
    (∀ h i, (start.run edits).get? h = some i → ∀ t ∈ i.targets, (start.run edits).contains t) ∧
    (∀ h, (start.run edits).encode ≠ .error (.staleHandle h)) ∧
    ((start.run edits).slots.size < 2 ^ 32 → ∃ a b, make .empty = .ok () a ∧
      a.run? edits = some b ∧ b.Shows (start.run edits).toList ∧
        ∀ h i, b.get? h = some i → ∀ t ∈ i.targets, b.contains t ∧ t ≠ .unresolved) := by
  have ha : (start.run edits).Anchored (0 + start.removals edits) :=
    ho.anchored.run (by rwa [Nat.zero_add])
  have hlive : ∀ h i, (start.run edits).get? h = some i →
      ∀ t ∈ i.targets, (start.run edits).contains t := by
    intro h i hg t ht
    obtain ⟨hc, hm⟩ := mem_of_get? hg
    exact ha.liveTargets _ hm hc t ht
  refine ⟨hlive, steady_encode ha.targets, fun hs => ?_⟩
  have hstart : start.slots.size ≤ UInt32.size :=
    Nat.le_of_lt (Nat.lt_of_le_of_lt size_le_run hs)
  obtain ⟨hlinked, a, hmake, hrep⟩ := ho.represents hstart
  obtain ⟨b, hrun, hb, hl⟩ := hrep.run? hlinked hs
  refine ⟨a, b, hmake, hrun, hb.shows hl, fun h i hg t ht => ?_⟩
  have hc : (start.run edits).contains t :=
    hlive h i (((hb.agrees hl).get h).symm.trans hg) t ht
  exact ⟨hb.contains_eq.trans hc, ne_unresolved hc hs⟩

/-- A jump to the next instruction, which is a return. -/
def hop : InstructionSeq :=
  ⟨#[(⟨0, 0⟩, .jump .goto ⟨1, 0⟩), (⟨1, 0⟩, .simple .returnVoid)], #[⟨0, true⟩, ⟨0, true⟩], []⟩

theorem decodeCode_hop :
    decodeCode .empty [0xa7, 0x00, 0x03, 0xb1] = .ok ⟨hop, #[(0, ⟨0, 0⟩), (3, ⟨1, 0⟩)]⟩ := rfl

/-- The return gives way to another one in the same slot. It cannot be removed as long as the jump
goes there, and the jump cannot be sent back to it afterwards. -/
def detour : List Edit := [
  .remove ⟨1, 0⟩, .setTarget ⟨0, 0⟩ ⟨0, 0⟩, .remove ⟨1, 0⟩, .append (.simple .returnVoid),
  .setTarget ⟨0, 0⟩ ⟨1, 0⟩, .redirect ⟨0, 0⟩ ⟨1, 1⟩]

theorem jumps_land_detour : hop.removals detour < 2 ^ 32 ∧
    (hop.run detour).get? ⟨0, 0⟩ = some (.jump .goto ⟨1, 1⟩) ∧ (hop.run detour).contains ⟨1, 1⟩ ∧
      ∀ h, (hop.run detour).encode ≠ .error (.staleHandle h) := by
  have hr : hop.removals detour < 2 ^ 32 := by decide +kernel
  have hg : (hop.run detour).get? ⟨0, 0⟩ = some (.jump .goto ⟨1, 1⟩) := by decide +kernel
  obtain ⟨hlive, he, -⟩ := jumps_land (.decoded decodeCode_hop) hr
  exact ⟨hr, hg, hlive _ _ hg _ List.mem_cons_self, he⟩

end Classfile.InstructionSeq
