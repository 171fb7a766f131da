import Classfile.Image.Binary
import Classfile.Proofs.Constant.Binary
import Classfile.Proofs.WidthTable

/-!
Images of classes are read back from their bytes. The pool is read until its slots are full, and
everything behind it is a sequence of parts that each know where they end.
-/
namespace Classfile

open Reader

theorem Version.yields_read (v : Version) : read.Yields v.write v :=
  (yields_u16 v.minor).bind ((yields_u16 v.major).map rfl)

namespace Attribute

/-- The length of the block has room in its field. -/
def Fits (a : Attribute) : Prop := a.info.length < 2 ^ 32

instance (a : Attribute) : Decidable a.Fits := inferInstanceAs (Decidable (_ < _))

theorem yields_read {a : Attribute} {bytes : List UInt8} (ha : a.Fits)
    (h : a.write = .ok bytes) : read.Yields bytes a := by
  cases h
  have hn : (UInt32.ofNat a.info.length).toNat = a.info.length := UInt32.toNat_ofNat_of_lt' ha
  have hu : u32.Yields (BigEndian.pack 4 a.info.length) (UInt32.ofNat a.info.length) :=
    (yields_number 4 a.info.length ha).map rfl
  refine a.name.yields_read.bind (hu.bind ?_)
  rw [hn]
  exact (yields_bytes a.info).map rfl

theorem yields_counted {attributes : List Attribute} {bytes : List UInt8}
    (ha : ∀ a ∈ attributes, a.Fits) (h : Writer.counted write attributes = .ok bytes) :
    (counted read).Yields bytes attributes :=
  Reader.yields_counted (fun a hm _ hw => yields_read (ha a hm) hw) h

end Attribute

namespace AccessFlags

variable {owner : FlagOwner}

/-- No bit is lost, since none of them is undefined. -/
theorem ofBits_bits (flags : AccessFlags owner) : ofBits owner flags.bits = flags := by
  obtain ⟨bits, defined⟩ := flags
  simp [ofBits, defined]

theorem yields_read (flags : AccessFlags owner) : (read owner).Yields flags.write flags :=
  (yields_u16 flags.bits).map flags.ofBits_bits

end AccessFlags

namespace Member

variable {owner : FlagOwner}

theorem yields_read {m : Member owner} {bytes : List UInt8} (hm : ∀ a ∈ m.attributes, a.Fits)
    (h : m.write = .ok bytes) : (read owner).Yields bytes m := by
  obtain ⟨attributes, ha, rfl⟩ := Except.map_eq_ok.mp h
  rw [List.append_assoc, List.append_assoc]
  exact m.flags.yields_read.bind (m.name.yields_read.bind
    (m.descriptor.yields_read.bind ((Attribute.yields_counted hm ha).map rfl)))

theorem yields_counted {members : List (Member owner)} {bytes : List UInt8}
    (hm : ∀ m ∈ members, ∀ a ∈ m.attributes, a.Fits)
    (h : Writer.counted write members = .ok bytes) :
    (counted (read owner)).Yields bytes members :=
  Reader.yields_counted (fun m hi _ hw => yields_read (hm m hi) hw) h

end Member

namespace ClassImage

/-- Reading goes on until the slots of all constants are full, and no further. -/
theorem yields_readConstantsOnto {pieces : List (List UInt8)} {constants : List Constant}
    (h : List.Forall₂ (fun c piece => c.write = .ok piece) constants pieces)
    (table : WidthTable Constant) :
    Yields (readConstantsOnto table (Width.total constants)) pieces.flatten
      (constants.foldl WidthTable.push table) := by
  induction h generalizing table with
  | nil =>
    intro rest
    rfl
  | @cons c piece constants pieces hc _ ih =>
    intro rest
    have hr : Constant.read (piece ++ (pieces.flatten ++ rest)) =
        .ok (c, pieces.flatten ++ rest) := Constant.yields_read hc (pieces.flatten ++ rest)
    have hi := ih (table.push c) rest
    rw [List.flatten_cons, List.append_assoc, Width.total_cons, List.foldl_cons]
    cases hw : c.isWide with
    | false =>
      have : Width.width c + Width.total constants = Width.total constants + 1 := by
        simp [Width.width, Constant.width, hw, Nat.add_comm]
      rw [this, readConstantsOnto, hr]
      simpa [hw] using hi
    | true =>
      have : Width.width c + Width.total constants = Width.total constants + 1 + 1 := by
        simp only [Width.width, Constant.width, hw, if_true]
        omega
      rw [this, readConstantsOnto, hr]
      simpa [hw] using hi

theorem yields_readConstants {constants : List Constant} {bytes : List UInt8}
    (hs : 1 + Width.total constants ≤ 65535)
    (h : Writer.each Constant.write constants = .ok bytes) :
    readConstants.Yields (BigEndian.pack 2 (1 + Width.total constants) ++ bytes)
      (WidthTable.ofList 1 constants) := by
  obtain ⟨pieces, hp, rfl⟩ := Except.map_eq_ok.mp h
  have hn : (UInt16.ofNat (1 + Width.total constants)).toNat = Width.total constants + 1 := by
    rw [UInt16.toNat_ofNat_of_lt' (Nat.lt_succ_of_le hs), Nat.add_comm]
  refine (yields_count hs).bind ?_
  rw [hn]
  exact yields_readConstantsOnto (Except.mapM_eq_ok.mp hp) (WidthTable.startingAt 1)

/-- All attributes that hang directly on the class or on one of its members. -/
def allAttributes (c : ClassImage) : List Attribute :=
  c.attributes ++ c.fields.flatMap (·.attributes) ++ c.methods.flatMap (·.attributes)

/-- What distinguishes images that a class file can hold, apart from counts that writing checks:
the pool begins at one, index zero is not given as a superclass, and attributes are short enough. -/
structure Storable (c : ClassImage) : Prop where
  constants : ∃ constants, c.constants = WidthTable.ofList 1 constants
  superClass : c.superClass ≠ some ⟨0⟩
  attributes : ∀ a ∈ c.allAttributes, a.Fits

theorem write_eq_ok {c : ClassImage} {bytes : List UInt8} (h : c.write = .ok bytes) :
    c.constants.extent ≤ 65535 ∧ ∃ constants interfaces fields methods attributes,
      Writer.each Constant.write (c.constants.toList.map (·.2)) = .ok constants ∧
      Writer.counted (fun i => .ok (ConstantIndex.write i)) c.interfaces = .ok interfaces ∧
      Writer.counted Member.write c.fields = .ok fields ∧
      Writer.counted Member.write c.methods = .ok methods ∧
      Writer.counted Attribute.write c.attributes = .ok attributes ∧
      bytes = magic ++ (c.version.write ++ ((BigEndian.pack 2 c.constants.extent ++ constants) ++
        (c.flags.write ++ (c.thisClass.write ++ (ConstantIndex.writeOptional c.superClass ++
          (interfaces ++ (fields ++ (methods ++ attributes)))))))) := by
  by_cases hx : c.constants.extent > 65535
  · simp [write, hx] at h
  · simp only [write, hx, if_false] at h
    obtain ⟨constants, hc, h⟩ := Except.bind_eq_ok.mp h
    obtain ⟨interfaces, hi, h⟩ := Except.bind_eq_ok.mp h
    obtain ⟨fields, hf, h⟩ := Except.bind_eq_ok.mp h
    obtain ⟨methods, hm, h⟩ := Except.bind_eq_ok.mp h
    obtain ⟨attributes, ha, h⟩ := Except.bind_eq_ok.mp h
    cases h
    refine ⟨by omega, constants, interfaces, fields, methods, attributes, ?_, hi, hf, hm, ha, ?_⟩
    · rwa [Writer.each, List.mapM_map]
    · simp only [List.append_assoc]

theorem yields_read {c : ClassImage} {bytes : List UInt8} (hc : c.Storable)
    (h : c.write = .ok bytes) : read.Yields bytes c := by
  obtain ⟨⟨constants, hl⟩, hs, ha⟩ := hc
  obtain ⟨hx, pool, interfaces, fields, methods, attributes, hp, hi, hf, hm, hb, rfl⟩ :=
    write_eq_ok h
  simp only [allAttributes, List.mem_append, List.mem_flatMap, or_imp, forall_and] at ha
  obtain ⟨⟨ha, haf⟩, ham⟩ := ha
  rw [hl, WidthTable.ofList_extent] at hx
  rw [hl, WidthTable.ofList_toList, Width.placed_map_snd] at hp
  rw [hl, WidthTable.ofList_extent]
  have hp := yields_readConstants hx hp
  rw [← hl] at hp
  have hi := Reader.yields_counted (fun i _ _ hw => Except.ok.inj hw ▸ i.yields_read) hi
  have hf := Member.yields_counted (fun m h a h' => haf a ⟨m, h, h'⟩) hf
  have hm := Member.yields_counted (fun m h a h' => ham a ⟨m, h, h'⟩) hm
  have hb := Attribute.yields_counted ha hb
  refine (yields_bytes magic).bind ?_
  rw [if_neg (not_not_intro rfl)]
  refine c.version.yields_read.bind (hp.bind (c.flags.yields_read.bind ?_))
  refine c.thisClass.yields_read.bind ((ConstantIndex.yields_readOptional hs).bind ?_)
  exact hi.bind (hf.bind (hm.bind (hb.map rfl)))

/-- Reading a class file undoes writing it. -/
theorem ofBytes_toBytes {c : ClassImage} {bytes : List UInt8} (hc : c.Storable)
    (h : c.toBytes = .ok bytes) : ofBytes bytes = .ok c := by
  cases hw : c.write with
  | error e => simp [toBytes, Fault.ofFormat, hw] at h
  | ok written =>
    simp only [toBytes, Fault.ofFormat, hw, Except.ok.injEq] at h
    subst h
    have hr := yields_read hc hw []
    rw [List.append_nil] at hr
    simp only [ofBytes, hr]

/-- A class with a constant that takes two slots, and with a field that has an attribute. -/
def counter : ClassImage where
  version := ⟨52, 0⟩
  constants := WidthTable.ofList 1 [
    .utf8 "Counter", .typeName ⟨1⟩, .utf8 "start", .utf8 "J", .utf8 "ConstantValue", .long 1]
  flags := AccessFlags.ofBits .type 0x0021
  thisClass := ⟨2⟩
  superClass := none
  interfaces := []
  fields := [⟨AccessFlags.ofBits .field 0x0019, ⟨3⟩, ⟨4⟩, [⟨⟨5⟩, [0, 6]⟩]⟩]
  methods := []
  attributes := []

theorem ofBytes_toBytes_counter : ∃ bytes, counter.toBytes = .ok bytes ∧
    ofBytes bytes = .ok counter :=
  have hc : counter.Storable := ⟨⟨_, rfl⟩, by decide, by decide⟩
  ⟨_, rfl, ofBytes_toBytes hc rfl⟩

end ClassImage

end Classfile
