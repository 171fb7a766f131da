import Classfile.Proofs.Binary.Delimits
import Classfile.Proofs.Image.Spelling

/-!
A class file says itself where it ends. Lengths and counts stand before what they are about, and a
text is looked at when all of it has been read. So a file that is cut off anywhere is refused for
that and for nothing else, and what is behind a whole file is counted and refused.
-/
namespace Classfile

open Reader

namespace ConstantIndex

theorem delimits_read : read.Delimits := delimits_u16.map

theorem delimits_readOptional : readOptional.Delimits := delimits_read.map

end ConstantIndex

namespace Constant

open ConstantIndex

theorem delimits_readText : readText.Delimits := by
  refine delimits_u16.bind fun n => (delimits_bytes n.toNat).bind fun bytes => ?_
  split
  · exact delimits_pure _
  · exact delimits_fail

theorem delimits_readHandleKind : readHandleKind.Delimits := by
  refine delimits_u8.bind fun code => ?_
  split
  · exact delimits_pure _
  · exact delimits_fail

theorem delimits_of_indices {f : ConstantIndex → ConstantIndex → Constant} :
    Delimits (do return f (← ConstantIndex.read) (← ConstantIndex.read)) :=
  delimits_read.bind fun _ => delimits_read.map

theorem delimits_of_bootstrap {f : UInt16 → ConstantIndex → Constant} :
    Delimits (do return f (← Reader.u16) (← ConstantIndex.read)) :=
  delimits_u16.bind fun _ => delimits_read.map

theorem delimits_readBody (t : UInt8) : (readBody t).Delimits := by
  unfold readBody
  split
  · exact delimits_readText.map
  · exact delimits_i32.map
  · exact delimits_u32.map
  · exact delimits_i64.map
  · exact delimits_u64.map
  · exact delimits_read.map
  · exact delimits_read.map
  · exact delimits_of_indices
  · exact delimits_of_indices
  · exact delimits_of_indices
  · exact delimits_of_indices
  · exact delimits_readHandleKind.bind fun _ => delimits_read.map
  · exact delimits_read.map
  · exact delimits_of_bootstrap
  · exact delimits_of_bootstrap
  · exact delimits_read.map
  · exact delimits_read.map
  · exact delimits_fail

theorem delimits_read : Constant.read.Delimits := delimits_u8.bind delimits_readBody

end Constant

theorem Version.delimits_read : read.Delimits := delimits_u16.bind fun _ => delimits_u16.map

theorem Attribute.delimits_read : read.Delimits :=
  ConstantIndex.delimits_read.bind fun _ => delimits_u32.bind fun n => (delimits_bytes n.toNat).map

theorem AccessFlags.delimits_read {owner : FlagOwner} : (read owner).Delimits := delimits_u16.map

theorem Member.delimits_read {owner : FlagOwner} : (read owner).Delimits := by
  refine AccessFlags.delimits_read.bind fun _ => ?_
  refine ConstantIndex.delimits_read.bind fun _ => ConstantIndex.delimits_read.bind fun _ => ?_
  exact Attribute.delimits_read.counted.map

namespace ClassImage

variable {bytes : List UInt8} {c : ClassImage} {table : WidthTable Constant}

/-- How many slots are left to fill depends on the constant that comes next. -/
theorem readConstantsOnto_succ (slots : Nat) : readConstantsOnto table (slots + 1) =
    Constant.read >>= fun c =>
      if c.isWide then
        match slots with
        | 0 => fail .constantOverrun
        | slots + 1 => readConstantsOnto (table.push c) slots
      else readConstantsOnto (table.push c) slots := by
  funext input
  change _ = Reader.bind _ _ input
  rw [readConstantsOnto, Reader.bind]
  cases Constant.read input with
  | error e => rfl
  | ok result =>
    obtain ⟨c, rest⟩ := result
    dsimp only
    split
    · cases slots <;> rfl
    · rfl

theorem delimits_readConstantsOnto (slots : Nat) : (readConstantsOnto table slots).Delimits := by
  -- a wide constant leaves two slots fewer
  induction slots using Nat.strongRecOn generalizing table with
  | _ slots ih =>
    cases slots with
    | zero => exact delimits_pure table
    | succ slots =>
      rw [readConstantsOnto_succ]
      refine Constant.delimits_read.bind fun c => ?_
      split
      · cases slots with
        | zero => exact delimits_fail
        | succ slots => exact ih slots (by omega)
      · exact ih slots (by omega)

theorem delimits_readConstants : readConstants.Delimits := by
  refine delimits_u16.bind fun n => ?_
  split
  · exact delimits_fail
  · exact delimits_readConstantsOnto _

theorem delimits_read : read.Delimits := by
  refine (delimits_bytes 4).bind fun start => ?_
  split
  · exact delimits_fail
  refine Version.delimits_read.bind fun _ => delimits_readConstants.bind fun _ => ?_
  refine AccessFlags.delimits_read.bind fun _ => ConstantIndex.delimits_read.bind fun _ => ?_
  refine ConstantIndex.delimits_readOptional.bind fun _ => ?_
  refine ConstantIndex.delimits_read.counted.bind fun _ => ?_
  refine Member.delimits_read.counted.bind fun _ => Member.delimits_read.counted.bind fun _ => ?_
  exact Attribute.delimits_read.counted.map

theorem ofBytes_eq_ok : ofBytes bytes = .ok c ↔ read bytes = .ok (c, []) := by
  unfold ofBytes
  constructor
  · intro h
    split at h
    · rename_i hr
      cases h
      exact hr
    all_goals cases h
  · intro h
    rw [h]

/-- The bytes are refused as a class file, with a message. -/
def RefusedWith (message : String) (bytes : List UInt8) : Prop :=
  ∃ flaw, ofBytes bytes = .error (.malformedClass flaw) ∧ flaw.message = message

/-- Bytes that are accepted as a class file are refused as truncated if the last of them are left
out, however many these are, and they are refused with the count of trailing bytes if others follow
them. So no two files are accepted of which one begins with the other. -/
theorem ofBytes_delimited (h : ofBytes bytes = .ok c) :
    (∀ front, front <+: bytes → front ≠ bytes → RefusedWith "truncated class file" front) ∧
    (∀ more n, more.length = n → 1 ≤ n →
      RefusedWith s!"{n} trailing bytes after class file" (bytes ++ more)) ∧
    ∀ other d, ofBytes other = .ok d → bytes <+: other → other = bytes := by
  obtain ⟨piece, hb, hy, hs⟩ := delimits_read (ofBytes_eq_ok.mp h)
  rw [List.append_nil] at hb
  subst hb
  have htrailing : ∀ more, more ≠ [] →
      ofBytes (bytes ++ more) = .error (.malformedClass (.trailing more.length)) := by
    intro more hm
    cases more with
    | nil => contradiction
    | cons byte more => rw [ofBytes, hy (byte :: more)]
  refine ⟨?_, ?_, ?_⟩
  · rintro front ⟨back, rfl⟩ hne
    have hr := hs front back rfl fun hback => hne (by rw [hback, List.append_nil])
    exact ⟨.truncated, by simp only [ofBytes, hr], rfl⟩
  · rintro more n rfl hn
    exact ⟨_, htrailing more (List.length_pos_iff.mp hn), rfl⟩
  · rintro other d hd ⟨more, rfl⟩
    by_cases hm : more = []
    · rw [hm, List.append_nil]
    · rw [htrailing more hm] at hd
      cases hd

/-- Cut off in the middle of a character that takes two bytes, and followed by one more byte. -/
theorem ofBytes_delimited_roundabout : (∃ c, ofBytes roundabout = .ok c) ∧
    RefusedWith "truncated class file" (roundabout.take 14) ∧
    RefusedWith "1 trailing bytes after class file" (roundabout ++ [0]) := by
  have h : ofBytes roundabout = .ok
      ⟨⟨52, 0⟩, WidthTable.ofList 1 [.utf8 "A", .typeName ⟨1⟩], AccessFlags.ofBits .type 1,
        ⟨2⟩, none, [], [], [], []⟩ := rfl
  obtain ⟨hcut, hmore, -⟩ := ofBytes_delimited h
  exact ⟨⟨_, h⟩, hcut _ (List.take_prefix 14 roundabout) (by decide), hmore [0] 1 rfl (by decide)⟩

end ClassImage

end Classfile
