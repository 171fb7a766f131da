import Classfile.Proofs.Binary.Takes
import Classfile.Proofs.Image.Binary
import Classfile.Proofs.Text.Forms

/-!
How a class file spells an image. Two things have several spellings: a text, whose units need not be
in their shortest forms, and a word of flags, whose undefined bits are dropped. Everything else is
written as it was read. So whatever was read can be written, in no more bytes.
-/
namespace Classfile

open Reader Writer

/-- What is asked of the texts and of the words of flags in a class file. -/
structure Manner where
  text : List UInt8 → Prop
  flags : FlagOwner → UInt16 → Prop

namespace Manner

def free : Manner := ⟨fun _ => True, fun _ _ => True⟩

/-- Texts are in shortest form, and no undefined flag is set. -/
def canonical : Manner :=
  ⟨ModifiedUtf8.IsShortest, fun owner bits => bits &&& owner.mask = bits⟩

/-- What is asked leaves no choice. -/
def Strict (manner : Manner) : Prop :=
  (∀ bytes, manner.text bytes → ModifiedUtf8.IsShortest bytes) ∧
    ∀ owner bits, manner.flags owner bits → bits &&& owner.mask = bits

theorem strict_canonical : canonical.Strict := ⟨fun _ h => h, fun _ _ h => h⟩

end Manner

/-! ### Constants -/

/-- The bytes of a constant. -/
inductive Constant.Spelled (manner : Manner) : List UInt8 → Constant → Prop
  | text {bytes : List UInt8} {text : String} (hd : ModifiedUtf8.decode bytes = .ok text)
    (hl : bytes.length ≤ 65535) (hm : manner.text bytes) :
    Spelled manner (1 :: (BigEndian.pack 2 bytes.length ++ bytes)) (.utf8 text)
  | other {piece : List UInt8} {c : Constant} (ht : ∀ text, c ≠ .utf8 text)
    (hw : c.write = .ok piece) : Spelled manner piece c

namespace ConstantIndex

theorem takes_read : read.Takes fun piece i => piece = i.write := by
  refine takes_u16.map ?_
  rintro piece n rfl
  rfl

theorem takes_readOptional :
    readOptional.Takes fun piece i => piece = writeOptional i ∧ i ≠ some ⟨0⟩ := by
  refine takes_read.map ?_
  rintro piece ⟨n⟩ rfl
  by_cases hn : n = 0
  · subst hn
    rw [if_pos rfl]
    exact ⟨rfl, nofun⟩
  · rw [if_neg hn]
    exact ⟨rfl, fun h => hn (ConstantIndex.mk.inj (Option.some.inj h))⟩

end ConstantIndex

theorem HandleKind.code_of_ofCode? {code : UInt8} {k : HandleKind} (h : ofCode? code = some k) :
    k.code = code := by
  simpa using List.find?_some h

namespace Constant

open ConstantIndex

variable {manner : Manner} {piece : List UInt8} {c : Constant}

theorem takes_readText : readText.Takes fun piece text => ∃ bytes,
    piece = BigEndian.pack 2 bytes.length ++ bytes ∧ ModifiedUtf8.decode bytes = .ok text ∧
      bytes.length ≤ 65535 := by
  refine takes_u16.bind ?_
  rintro piece n rfl
  refine (takes_bytes n.toNat).bind ?_
  rintro more bytes ⟨rfl, hn⟩
  have hb := n.toNat_lt
  split
  · rename_i text hd
    refine takes_pure ⟨more, ?_, hd, by omega⟩
    rw [List.append_nil, hn]
    rfl
  · exact takes_fail

theorem takes_readHandleKind : readHandleKind.Takes fun piece k => piece = u8 k.code := by
  refine takes_u8.bind ?_
  rintro piece code rfl
  split
  · rename_i k hk
    refine takes_pure ?_
    rw [HandleKind.code_of_ofCode? hk]
    rfl
  · exact takes_fail

theorem spelled_body {body : List UInt8} (c : Constant) (ht : ∀ text, c ≠ .utf8 text)
    (hb : c.writeBody = .ok body) : Spelled manner (c.tag :: body) c :=
  .other ht (by simp [write, hb])

theorem takes_of_index {f : ConstantIndex → Constant} {t : UInt8}
    (h : ∀ i, Spelled .free (t :: i.write) (f i)) :
    Takes (do return f (← ConstantIndex.read)) fun piece c => Spelled .free (t :: piece) c :=
  takes_read.map fun _ i hp => hp ▸ h i

theorem takes_of_indices {f : ConstantIndex → ConstantIndex → Constant} {t : UInt8}
    (h : ∀ i j, Spelled .free (t :: (i.write ++ j.write)) (f i j)) :
    Takes (do return f (← ConstantIndex.read) (← ConstantIndex.read))
      fun piece c => Spelled .free (t :: piece) c := by
  refine takes_read.bind ?_
  rintro piece i rfl
  refine takes_read.map ?_
  rintro more j rfl
  exact h i j

theorem takes_of_bootstrap {f : UInt16 → ConstantIndex → Constant} {t : UInt8}
    (h : ∀ n i, Spelled .free (t :: (Writer.u16 n ++ i.write)) (f n i)) :
    Takes (do return f (← Reader.u16) (← ConstantIndex.read))
      fun piece c => Spelled .free (t :: piece) c := by
  refine takes_u16.bind ?_
  rintro piece n rfl
  refine takes_read.map ?_
  rintro more i rfl
  exact h n i

theorem takes_readBody (t : UInt8) :
    (readBody t).Takes fun piece c => Spelled .free (t :: piece) c := by
  unfold readBody
  split
  · refine takes_readText.map ?_
    rintro piece text ⟨bytes, rfl, hd, hl⟩
    exact .text hd hl trivial
  · exact takes_i32.map fun _ n hp => hp ▸ spelled_body (.integer n) nofun rfl
  · exact takes_u32.map fun _ n hp => hp ▸ spelled_body (.float n) nofun rfl
  · exact takes_i64.map fun _ n hp => hp ▸ spelled_body (.long n) nofun rfl
  · exact takes_u64.map fun _ n hp => hp ▸ spelled_body (.double n) nofun rfl
  · exact takes_of_index fun i => spelled_body (.typeName i) nofun rfl
  · exact takes_of_index fun i => spelled_body (.string i) nofun rfl
  · exact takes_of_indices fun i j => spelled_body (.fieldRef i j) nofun rfl
  · exact takes_of_indices fun i j => spelled_body (.methodRef false i j) nofun rfl
  · exact takes_of_indices fun i j => spelled_body (.methodRef true i j) nofun rfl
  · exact takes_of_indices fun i j => spelled_body (.nameAndType i j) nofun rfl
  · refine takes_readHandleKind.bind ?_
    rintro _ kind rfl
    exact takes_read.map fun _ i hp => hp ▸ spelled_body (.methodHandle kind i) nofun rfl
  · exact takes_of_index fun i => spelled_body (.methodType i) nofun rfl
  · exact takes_of_bootstrap fun n i => spelled_body (.dynamic n i) nofun rfl
  · exact takes_of_bootstrap fun n i => spelled_body (.invokeDynamic n i) nofun rfl
  · exact takes_of_index fun i => spelled_body (.moduleName i) nofun rfl
  · exact takes_of_index fun i => spelled_body (.packageName i) nofun rfl
  · exact takes_fail

theorem takes_read : read.Takes (Spelled .free) := by
  refine takes_u8.bind ?_
  rintro piece t rfl
  exact takes_readBody t

/-- A text gets no longer, so that it still has room behind its length. -/
theorem rewrites_write (h : Spelled manner piece c) : Rewrites write manner.Strict piece c := by
  cases h with
  | @text bytes text hd hl hm =>
    have hle := ModifiedUtf8.length_encode_le hd
    refine ⟨1 :: (BigEndian.pack 2 (ModifiedUtf8.encode text).length ++
      ModifiedUtf8.encode text), ?_, ?_, ?_⟩
    · have hn : ¬ (ModifiedUtf8.encode text).length > 65535 := by omega
      simp [write, writeBody, writeText, hn, tag]
    · simp only [List.length_cons, List.length_append, BigEndian.length_pack]
      omega
    · intro hs
      rw [ModifiedUtf8.encode_of_isShortest hd (hs.1 bytes hm)]
  | other ht hw => exact rewrites_of_eq hw

theorem spelled_write (h : c.write = .ok piece) : Spelled .canonical piece c := by
  cases c with
  | utf8 text =>
    obtain ⟨body, hb, rfl⟩ := Except.map_eq_ok.mp h
    by_cases hl : (ModifiedUtf8.encode text).length > 65535
    · simp [writeBody, writeText, hl] at hb
    · simp only [writeBody, writeText, hl, if_false, Except.ok.injEq] at hb
      subst hb
      exact .text (ModifiedUtf8.decode_encode text) (Nat.le_of_not_lt hl)
        (ModifiedUtf8.isShortest_encode text)
  | _ => exact .other (by simp) h

end Constant

/-! ### Members -/

theorem Version.takes_read : read.Takes fun piece v => piece = v.write := by
  refine takes_u16.bind ?_
  rintro piece minor rfl
  refine takes_u16.map ?_
  rintro more major rfl
  rfl

/-- The bytes of a word of flags. -/
def AccessFlags.Spelled (manner : Manner) {owner : FlagOwner} (piece : List UInt8)
    (flags : AccessFlags owner) : Prop :=
  ∃ bits, piece = Writer.u16 bits ∧ flags = ofBits owner bits ∧ manner.flags owner bits

namespace AccessFlags

variable {manner : Manner} {owner : FlagOwner} {piece : List UInt8} {flags : AccessFlags owner}

theorem takes_read : (read owner).Takes (Spelled .free) :=
  takes_u16.map fun _ bits hp => ⟨bits, hp, rfl, trivial⟩

theorem Spelled.length_write (h : Spelled manner piece flags) :
    flags.write.length = piece.length := by
  obtain ⟨bits, rfl, -⟩ := h
  rw [write, Writer.u16, Writer.u16, BigEndian.length_pack, BigEndian.length_pack]

theorem Spelled.write_eq (h : Spelled manner piece flags) (hs : manner.Strict) :
    flags.write = piece := by
  obtain ⟨bits, rfl, rfl, hm⟩ := h
  exact congrArg Writer.u16 (hs.2 owner bits hm)

end AccessFlags

theorem AccessFlags.spelled_write {owner : FlagOwner} (flags : AccessFlags owner) :
    flags.Spelled .canonical flags.write :=
  ⟨flags.bits, rfl, flags.ofBits_bits.symm, flags.defined⟩

/-- The bytes of an attribute. -/
def Attribute.Spelled (piece : List UInt8) (a : Attribute) : Prop := a.write = .ok piece ∧ a.Fits

theorem Attribute.takes_read : read.Takes Spelled := by
  refine ConstantIndex.takes_read.bind ?_
  rintro piece name rfl
  refine takes_u32.bind ?_
  rintro more n rfl
  refine (takes_bytes n.toNat).map ?_
  rintro most info ⟨rfl, hn⟩
  have hl : most.length < 2 ^ 32 := hn ▸ n.toNat_lt
  refine ⟨?_, hl⟩
  rw [write, blob, hn]
  rfl

/-- The bytes of a field or method. -/
inductive Member.Spelled (manner : Manner) {owner : FlagOwner} : List UInt8 → Member owner → Prop
  | mk {word attributes : List UInt8} {m : Member owner} (hf : m.flags.Spelled manner word)
    (ha : Counted Attribute.Spelled attributes m.attributes) :
    Spelled manner (word ++ (m.name.write ++ (m.descriptor.write ++ attributes))) m

namespace Member

variable {manner : Manner} {owner : FlagOwner} {piece : List UInt8} {m : Member owner}

theorem takes_read : (read owner).Takes (Spelled .free) := by
  refine AccessFlags.takes_read.bind ?_
  intro word flags hf
  refine ConstantIndex.takes_read.bind ?_
  rintro _ name rfl
  refine ConstantIndex.takes_read.bind ?_
  rintro _ descriptor rfl
  refine Attribute.takes_read.counted.map ?_
  intro attributes as ha
  exact .mk (m := ⟨flags, name, descriptor, as⟩) hf ha

theorem rewrites_write (h : Spelled manner piece m) : Rewrites write manner.Strict piece m := by
  obtain @⟨word, attributes, _, hf, ha⟩ := h
  obtain ⟨written, hw, hl, hs⟩ :=
    rewrites_counted ha fun _ _ h => (rewrites_of_eq h.1 : Rewrites _ manner.Strict _ _)
  refine ⟨m.flags.write ++ m.name.write ++ m.descriptor.write ++ written, ?_, ?_, ?_⟩
  · simp [write, hw]
  · simp only [List.length_append, hf.length_write]
    omega
  · intro he
    simp only [hf.write_eq he, hs he, List.append_assoc]

theorem spelled_write (hm : ∀ a ∈ m.attributes, a.Fits) (h : m.write = .ok piece) :
    m.Spelled .canonical piece := by
  obtain ⟨attributes, ha, rfl⟩ := Except.map_eq_ok.mp h
  rw [List.append_assoc, List.append_assoc]
  exact .mk m.flags.spelled_write (counted_of_write ha fun a h _ hw => ⟨hw, hm a h⟩)

theorem Spelled.fits (h : Spelled manner piece m) : ∀ a ∈ m.attributes, a.Fits := by
  obtain ⟨-, ha⟩ := h
  exact ha.forall fun _ _ h => h.2

end Member

/-! ### Images -/

namespace ClassImage

variable {manner : Manner} {piece bytes : List UInt8} {c : ClassImage}

/-- The bytes of a class file. -/
inductive Spelled (manner : Manner) : List UInt8 → ClassImage → Prop
  | mk {c : ClassImage} {constants : List Constant} {pieces : List (List UInt8)}
    {word interfaces fields methods attributes : List UInt8}
    (hc : c.constants = WidthTable.ofList 1 constants) (hx : c.constants.extent ≤ 65535)
    (hp : List.Forall₂ (Constant.Spelled manner) pieces constants)
    (hw : c.flags.Spelled manner word) (hs : c.superClass ≠ some ⟨0⟩)
    (hi : Counted (fun piece i => piece = ConstantIndex.write i) interfaces c.interfaces)
    (hf : Counted (Member.Spelled manner) fields c.fields)
    (hm : Counted (Member.Spelled manner) methods c.methods)
    (ha : Counted Attribute.Spelled attributes c.attributes) :
    Spelled manner (magic ++ (c.version.write ++
      ((BigEndian.pack 2 c.constants.extent ++ pieces.flatten) ++ (word ++ (c.thisClass.write ++
        (ConstantIndex.writeOptional c.superClass ++
          (interfaces ++ (fields ++ (methods ++ attributes))))))))) c

/-- The bytes of constants that fill some slots behind a table. -/
def Fills (manner : Manner) (table : WidthTable Constant) (slots : Nat) (piece : List UInt8)
    (full : WidthTable Constant) : Prop :=
  ∃ pieces constants, piece = pieces.flatten ∧ full = constants.foldl WidthTable.push table ∧
    List.Forall₂ (Constant.Spelled manner) pieces constants ∧ Width.total constants = slots

theorem Fills.cons {table full : WidthTable Constant} {constant : Constant} {slots : Nat}
    (hc : Constant.Spelled manner piece constant)
    (h : Fills manner (table.push constant) slots bytes full) :
    Fills manner table (constant.width + slots) (piece ++ bytes) full := by
  obtain ⟨pieces, constants, rfl, rfl, hp, rfl⟩ := h
  exact ⟨piece :: pieces, constant :: constants, rfl, rfl, .cons hc hp, Width.total_cons⟩

theorem takes_readConstantsOnto (table : WidthTable Constant) (slots : Nat) :
    Takes (readConstantsOnto table slots) (Fills .free table slots) := by
  intro input full rest h
  fun_induction readConstantsOnto table slots input with
  | case1 table input =>
    cases h
    exact ⟨[], rfl, [], [], rfl, rfl, .nil, rfl⟩
  | case2 => cases h
  | case3 => cases h
  | case4 table input c more hr hw slots ih =>
    obtain ⟨piece, rfl, hc⟩ := Constant.takes_read hr
    obtain ⟨bytes, rfl, hf⟩ := ih h
    have hf := hf.cons hc
    rw [Constant.width, if_pos hw, Nat.add_comm] at hf
    exact ⟨piece ++ bytes, (List.append_assoc _ _ _).symm, hf⟩
  | case5 table slots input c more hr hw ih =>
    obtain ⟨piece, rfl, hc⟩ := Constant.takes_read hr
    obtain ⟨bytes, rfl, hf⟩ := ih h
    have hf := hf.cons hc
    rw [Constant.width, if_neg hw, Nat.add_comm] at hf
    exact ⟨piece ++ bytes, (List.append_assoc _ _ _).symm, hf⟩

theorem takes_readConstants : readConstants.Takes fun piece t => ∃ pieces constants,
    piece = BigEndian.pack 2 t.extent ++ pieces.flatten ∧ t = WidthTable.ofList 1 constants ∧
      List.Forall₂ (Constant.Spelled .free) pieces constants ∧ t.extent ≤ 65535 := by
  refine takes_u16.bind ?_
  rintro _ n rfl
  have hn := n.toNat_lt
  split
  · exact takes_fail
  · rename_i slots hs
    intro input t rest h
    obtain ⟨_, rfl, pieces, constants, rfl, rfl, hp, rfl⟩ := takes_readConstantsOnto _ _ h
    have hx : (WidthTable.ofList 1 constants).extent = n.toNat := by
      rw [WidthTable.ofList_extent, hs, Nat.add_comm]
    refine ⟨_, rfl, pieces, constants, ?_, rfl, hp, ?_⟩
    · rw [← WidthTable.ofList, hx]
      rfl
    · rw [← WidthTable.ofList, hx]
      omega

theorem takes_read : read.Takes (Spelled .free) := by
  refine (takes_bytes 4).bind ?_
  rintro _ start ⟨rfl, -⟩
  split
  · exact takes_fail
  rename_i hm
  rw [ne_eq, not_not] at hm
  subst hm
  refine Version.takes_read.bind ?_
  rintro _ version rfl
  refine takes_readConstants.bind ?_
  rintro _ _ ⟨pieces, constants, rfl, rfl, hp, hx⟩
  refine AccessFlags.takes_read.bind ?_
  intro word flags hw
  refine ConstantIndex.takes_read.bind ?_
  rintro _ thisClass rfl
  refine ConstantIndex.takes_readOptional.bind ?_
  rintro _ superClass ⟨rfl, hs⟩
  refine ConstantIndex.takes_read.counted.bind ?_
  intro interfaces is hi
  refine Member.takes_read.counted.bind ?_
  intro fields fs hf
  refine Member.takes_read.counted.bind ?_
  intro methods ms hm
  refine Attribute.takes_read.counted.map ?_
  intro attributes as ha
  exact .mk (c := ⟨version, .ofList 1 constants, flags, thisClass, superClass, is, fs, ms, as⟩)
    rfl hx hp hw hs hi hf hm ha

theorem Spelled.storable (h : Spelled manner piece c) : c.Storable := by
  obtain ⟨hc, -, -, -, hs, -, hf, hm, ha⟩ := h
  refine ⟨⟨_, hc⟩, hs, ?_⟩
  simp only [allAttributes, List.mem_append, List.mem_flatMap]
  rintro a ((h | ⟨m, hm', h⟩) | ⟨m, hm', h⟩)
  · exact ha.forall (fun _ _ h => h.2) a h
  · exact hf.forall (P := fun m => ∀ a ∈ m.attributes, a.Fits) (fun _ _ h => h.fits) m hm' a h
  · exact hm.forall (P := fun m => ∀ a ∈ m.attributes, a.Fits) (fun _ _ h => h.fits) m hm' a h

theorem rewrites_write (h : Spelled manner piece c) : Rewrites write manner.Strict piece c := by
  obtain @⟨_, constants, pieces, word, interfaces, fields, methods, attributes, hc, hx, hp, hw, -,
    hi, hf, hm, ha⟩ := h
  have hl : c.constants.toList.map (·.2) = constants := by
    rw [hc, WidthTable.ofList_toList, Width.placed_map_snd]
  obtain ⟨constants', hc, hcl, hcs⟩ := rewrites_each hp fun _ _ => Constant.rewrites_write
  rw [each, ← hl, List.mapM_map] at hc
  obtain ⟨interfaces', hi, hil, his⟩ := rewrites_counted hi fun _ _ h =>
    (rewrites_of_eq (h ▸ rfl) :
      Rewrites (fun i => .ok (ConstantIndex.write i)) manner.Strict _ _)
  obtain ⟨fields', hf, hfl, hfs⟩ := rewrites_counted hf fun _ _ => Member.rewrites_write
  obtain ⟨methods', hm, hml, hms⟩ := rewrites_counted hm fun _ _ => Member.rewrites_write
  obtain ⟨attributes', ha, hal, has⟩ :=
    rewrites_counted ha fun _ _ h => (rewrites_of_eq h.1 : Rewrites _ manner.Strict _ _)
  refine ⟨magic ++ c.version.write ++ BigEndian.pack 2 c.constants.extent ++ constants' ++
    c.flags.write ++ c.thisClass.write ++ ConstantIndex.writeOptional c.superClass ++
    interfaces' ++ fields' ++ methods' ++ attributes', ?_, ?_, ?_⟩
  · rw [write, if_neg (Nat.not_lt_of_le hx)]
    refine Except.bind_eq_ok.mpr ⟨constants', hc, ?_⟩
    simp only [hi, hf, hm, ha]
    rfl
  · simp only [List.length_append, hw.length_write]
    omega
  · intro hs
    simp only [hcs hs, hw.write_eq hs, his hs, hfs hs, hms hs, has hs, List.append_assoc]

/-- What is written is spelled in the one canonical way. -/
theorem spelled_write (hc : c.Storable) (h : c.write = .ok bytes) :
    Spelled .canonical bytes c := by
  obtain ⟨⟨constants, hl⟩, hs, ha⟩ := hc
  obtain ⟨hx, pool, interfaces, fields, methods, attributes, hp, hi, hf, hm, hb, rfl⟩ :=
    write_eq_ok h
  simp only [allAttributes, List.mem_append, List.mem_flatMap, or_imp, forall_and] at ha
  obtain ⟨⟨ha, haf⟩, ham⟩ := ha
  rw [hl, WidthTable.ofList_toList, Width.placed_map_snd] at hp
  obtain ⟨pieces, rfl, hps⟩ := exists_pieces hp fun _ _ _ => Constant.spelled_write
  exact .mk hl hx hps c.flags.spelled_write hs
    (counted_of_write hi fun _ _ _ hw => (Except.ok.inj hw).symm)
    (counted_of_write hf fun m h _ => Member.spelled_write fun a h' => haf a ⟨m, h, h'⟩)
    (counted_of_write hm fun m h _ => Member.spelled_write fun a h' => ham a ⟨m, h, h'⟩)
    (counted_of_write hb fun a h _ hw => ⟨hw, ha a h⟩)

/-- What was read can be written, and is read again from what was written. No byte is added, and
nothing changes just if all texts were in shortest form and no undefined flag was set. -/
theorem toBytes_ofBytes (h : ofBytes bytes = .ok c) : Spelled .free bytes c ∧
    ∃ written, c.toBytes = .ok written ∧ written.length ≤ bytes.length ∧
      ofBytes written = .ok c ∧ (written = bytes ↔ Spelled .canonical bytes c) := by
  have hr : read bytes = .ok (c, []) := by
    unfold ofBytes at h
    split at h
    · rename_i hr
      cases h
      exact hr
    all_goals cases h
  obtain ⟨piece, hb, hs⟩ := takes_read hr
  rw [List.append_nil] at hb
  subst hb
  obtain ⟨written, hw, hl, -⟩ := rewrites_write hs
  have hy := yields_read hs.storable hw []
  rw [List.append_nil] at hy
  refine ⟨hs, written, ?_, hl, ?_, ?_, ?_⟩
  · rw [toBytes, hw]
    rfl
  · simp only [ofBytes, hy]
  · rintro rfl
    exact spelled_write hs.storable hw
  · intro hc
    obtain ⟨same, hsame, -, he⟩ := rewrites_write hc
    rw [hw] at hsame
    cases hsame
    exact he Manner.strict_canonical

/-- A class whose name is spelled in a longer form than needed, with a flag that is not defined. -/
def roundabout : List UInt8 := [
  0xca, 0xfe, 0xba, 0xbe, 0, 0, 0, 52, 0, 3, 1, 0, 2, 0xc1, 0x81, 7, 0, 1, 0, 3, 0, 2, 0, 0,
  0, 0, 0, 0, 0, 0, 0, 0]

theorem toBytes_ofBytes_roundabout : ∃ c written, ofBytes roundabout = .ok c ∧
    c.toBytes = .ok written ∧ written.length ≤ roundabout.length ∧ ofBytes written = .ok c := by
  have h : ofBytes roundabout = .ok
      ⟨⟨52, 0⟩, WidthTable.ofList 1 [.utf8 "A", .typeName ⟨1⟩], AccessFlags.ofBits .type 1,
        ⟨2⟩, none, [], [], [], []⟩ := rfl
  obtain ⟨-, written, hw, hl, hr, -⟩ := toBytes_ofBytes h
  exact ⟨_, written, h, hw, hl, hr⟩

end ClassImage

end Classfile
