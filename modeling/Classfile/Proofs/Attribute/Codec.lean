import Classfile.Proofs.Annotation.Exact
import Classfile.Proofs.Annotation.Uses
import Classfile.Proofs.Pool.Held

/-!
The payloads of attributes and their bytes determine each other. A payload that was found is stored
again as it was found, and one that is stored is found again, at every kind of attribute. The only
thing that can go wrong is that the pool has no room for the name.
-/
namespace Classfile

open Reader

/-! ### What payloads are made of -/

theorem ConstantIndex.codec : Codec read (fun i => .ok i.write) fun _ => True where
  takes := takes_read.mono fun _ _ h => ⟨congrArg Except.ok h.symm, trivial⟩
  writes i _ := ⟨i.write, rfl⟩
  yields i _ _ h := Except.ok.inj h ▸ i.yields_read

theorem LineNumber.codec : Codec (do return ⟨← u16, ← u16⟩ : Reader LineNumber)
    (fun l => .ok (Writer.u16 l.start ++ Writer.u16 l.line)) fun _ => True where
  takes := by
    refine takes_u16.bind ?_
    rintro _ start rfl
    refine takes_u16.map ?_
    rintro _ line rfl
    exact ⟨rfl, trivial⟩
  writes l _ := ⟨_, rfl⟩
  yields l bytes _ h := by
    cases h
    exact (yields_u16 l.start).bind ((yields_u16 l.line).map rfl)

theorem VariableRange.codec : Codec read write fun _ => True where
  takes := by
    refine takes_u16.bind ?_
    rintro _ start rfl
    refine takes_u16.bind ?_
    rintro _ length rfl
    refine ConstantIndex.takes_read.bind ?_
    rintro _ name rfl
    refine ConstantIndex.takes_read.bind ?_
    rintro _ descriptor rfl
    refine takes_u16.map ?_
    rintro _ slot rfl
    exact ⟨by simp only [write, List.append_assoc], trivial⟩
  writes r _ := ⟨_, rfl⟩
  yields _ _ _ h := yields_read h

theorem ExceptionHandler.codec : Codec read write fun e => e.catchType ≠ some ⟨0⟩ where
  takes := by
    refine takes_u16.bind ?_
    rintro _ start rfl
    refine takes_u16.bind ?_
    rintro _ stop rfl
    refine takes_u16.bind ?_
    rintro _ handler rfl
    refine ConstantIndex.takes_readOptional.map ?_
    rintro _ catchType ⟨rfl, hc⟩
    exact ⟨by simp only [write, List.append_assoc], hc⟩
  writes e _ := ⟨_, rfl⟩
  yields _ _ hc h := yields_read hc h

theorem Attribute.codec : Codec read write Fits where
  takes := takes_read
  writes _ _ := ⟨_, rfl⟩
  yields _ _ ha h := yields_read ha h

/-- The parameters, whose number has one byte, and the annotations of each. -/
theorem codec_parameterAnnotations : Codec readParameterAnnotations writeParameterAnnotations
    fun parameters => parameters.length ≤ 255 ∧
      ∀ annotations ∈ parameters, annotations.length ≤ 65535 ∧ ∀ a ∈ annotations, a.Bounded where
  takes := by
    refine takes_u8.bind ?_
    rintro _ n rfl input parameters rest h
    obtain ⟨_, rfl, pieces, _, rfl, rfl, hf, hl⟩ := Annotation.codec.counted.takes.timesOnto h
    have hn := n.toNat_lt
    obtain ⟨hw, hb⟩ := forall_of_pieces hf
    refine ⟨_, rfl, ?_, by omega, hb⟩
    rw [writeParameterAnnotations, if_neg (by omega), Writer.each_of_pieces hw, hl]
    simp [BigEndian.pack]
  writes parameters hp := by
    obtain ⟨hl, hp⟩ := hp
    obtain ⟨pieces, hw⟩ := Except.exists_mapM fun annotations hm =>
      Annotation.codec.counted.writes annotations (hp annotations hm)
    refine ⟨BigEndian.pack 1 parameters.length ++ pieces.flatten, ?_⟩
    rw [writeParameterAnnotations, if_neg (Nat.not_lt.mpr hl), Writer.each, hw]
    rfl
  yields _ _ _ h := yields_readParameterAnnotations h

/-- All lengths in the code have room in their fields, and no handler catches the class with the
index zero. -/
structure CodeBody.Bounded (p : CodeBody) : Prop extends CodeBody.Fits p where
  handlerCount : p.handlers.length ≤ 65535
  attributeCount : p.attributes.length ≤ 65535

theorem CodeBody.codec :
    Codec (Payload.read : Reader CodeBody) Payload.write CodeBody.Bounded where
  takes := by
    refine takes_u16.bind ?_
    rintro _ maxStack rfl
    refine takes_u16.bind ?_
    rintro _ maxLocals rfl
    refine takes_u32.bind ?_
    rintro _ n rfl
    refine (takes_bytes n.toNat).bind ?_
    rintro _ code ⟨rfl, hn⟩
    refine ExceptionHandler.codec.counted.takes.bind ?_
    rintro handlers hs ⟨hw, hl, hs⟩
    refine Attribute.codec.counted.takes.map ?_
    rintro attributes as ⟨hw', hl', has⟩
    refine ⟨Except.bind_eq_ok.mpr ⟨handlers, hw, Except.map_eq_ok.mpr ⟨attributes, hw', ?_⟩⟩,
      ⟨hn ▸ n.toNat_lt, hs, has⟩, hl, hl'⟩
    simp only [Writer.blob, Writer.u32, hn, List.append_assoc]
  writes p hp := by
    obtain ⟨handlers, hh⟩ := ExceptionHandler.codec.counted.writes p.handlers
      ⟨hp.handlerCount, hp.handlers⟩
    obtain ⟨attributes, ha⟩ := Attribute.codec.counted.writes p.attributes
      ⟨hp.attributeCount, hp.attributes⟩
    exact ⟨_, Except.bind_eq_ok.mpr ⟨handlers, hh, Except.map_eq_ok.mpr ⟨attributes, ha, rfl⟩⟩⟩
  yields _ _ hp h := yields_read hp.toFits h

/-! ### The kinds of attributes -/

/-- The kinds of attributes whose payloads are understood. -/
inductive AttributeKind
  | constantValue
  | code
  | lineNumberTable
  | localVariableTable
  | localVariableTypeTable
  | exceptions
  | sourceFile
  | signature
  | visibleAnnotations
  | invisibleAnnotations
  | visibleParameterAnnotations
  | invisibleParameterAnnotations
  deriving DecidableEq, Repr

namespace AttributeKind

/-- What an attribute of the kind holds. -/
def Content : AttributeKind → Type
  | constantValue => ConstantValue
  | code => CodeBody
  | lineNumberTable => LineNumberTable
  | localVariableTable => LocalVariableTable
  | localVariableTypeTable => LocalVariableTypeTable
  | exceptions => Exceptions
  | sourceFile => SourceFile
  | signature => Signature
  | visibleAnnotations => VisibleAnnotations
  | invisibleAnnotations => InvisibleAnnotations
  | visibleParameterAnnotations => VisibleParameterAnnotations
  | invisibleParameterAnnotations => InvisibleParameterAnnotations

instance : (kind : AttributeKind) → Payload kind.Content
  | constantValue => inferInstanceAs (Payload ConstantValue)
  | code => inferInstanceAs (Payload CodeBody)
  | lineNumberTable => inferInstanceAs (Payload LineNumberTable)
  | localVariableTable => inferInstanceAs (Payload LocalVariableTable)
  | localVariableTypeTable => inferInstanceAs (Payload LocalVariableTypeTable)
  | exceptions => inferInstanceAs (Payload Exceptions)
  | sourceFile => inferInstanceAs (Payload SourceFile)
  | signature => inferInstanceAs (Payload Signature)
  | visibleAnnotations => inferInstanceAs (Payload VisibleAnnotations)
  | invisibleAnnotations => inferInstanceAs (Payload InvisibleAnnotations)
  | visibleParameterAnnotations => inferInstanceAs (Payload VisibleParameterAnnotations)
  | invisibleParameterAnnotations => inferInstanceAs (Payload InvisibleParameterAnnotations)

/-- Every sequence in the payload has at most 65535 elements, and parameters number at most 255.
In code, no byte array has a length of `2 ^ 32` or more, and no handler catches the class with the
index zero. -/
def Bounded : (kind : AttributeKind) → kind.Content → Prop
  | constantValue, _ | sourceFile, _ | signature, _ => True
  | code, p => CodeBody.Bounded p
  | lineNumberTable, p => (LineNumberTable.lines p).length ≤ 65535
  | localVariableTable, p => (LocalVariableTable.ranges p).length ≤ 65535
  | localVariableTypeTable, p => (LocalVariableTypeTable.ranges p).length ≤ 65535
  | exceptions, p => (Exceptions.types p).length ≤ 65535
  | visibleAnnotations, p => (VisibleAnnotations.annotations p).length ≤ 65535 ∧
      ∀ a ∈ VisibleAnnotations.annotations p, a.Bounded
  | invisibleAnnotations, p => (InvisibleAnnotations.annotations p).length ≤ 65535 ∧
      ∀ a ∈ InvisibleAnnotations.annotations p, a.Bounded
  | visibleParameterAnnotations, p =>
      (VisibleParameterAnnotations.parameters p).length ≤ 255 ∧
      ∀ annotations ∈ VisibleParameterAnnotations.parameters p,
        annotations.length ≤ 65535 ∧ ∀ a ∈ annotations, a.Bounded
  | invisibleParameterAnnotations, p =>
      (InvisibleParameterAnnotations.parameters p).length ≤ 255 ∧
      ∀ annotations ∈ InvisibleParameterAnnotations.parameters p,
        annotations.length ≤ 65535 ∧ ∀ a ∈ annotations, a.Bounded

theorem codec (kind : AttributeKind) :
    Codec (Payload.read : Reader kind.Content) Payload.write kind.Bounded := by
  have hany : ∀ {α : Type} {xs : List α}, xs.length ≤ 65535 ∧ (∀ a ∈ xs, True) ↔
      xs.length ≤ 65535 := by simp
  cases kind with
  | constantValue => exact ConstantIndex.codec.map (fun _ => rfl) fun _ => rfl
  | code => exact CodeBody.codec
  | lineNumberTable =>
    exact (LineNumber.codec.counted.map (fun _ => rfl) fun _ => rfl).congr fun _ => hany
  | localVariableTable =>
    exact (VariableRange.codec.counted.map (fun _ => rfl) fun _ => rfl).congr fun _ => hany
  | localVariableTypeTable =>
    exact (VariableRange.codec.counted.map (fun _ => rfl) fun _ => rfl).congr fun _ => hany
  | exceptions =>
    exact (ConstantIndex.codec.counted.map (fun _ => rfl) fun _ => rfl).congr fun _ => hany
  | sourceFile => exact ConstantIndex.codec.map (fun _ => rfl) fun _ => rfl
  | signature => exact ConstantIndex.codec.map (fun _ => rfl) fun _ => rfl
  | visibleAnnotations => exact Annotation.codec.counted.map (fun _ => rfl) fun _ => rfl
  | invisibleAnnotations => exact Annotation.codec.counted.map (fun _ => rfl) fun _ => rfl
  | visibleParameterAnnotations =>
    exact codec_parameterAnnotations.map (fun _ => rfl) fun _ => rfl
  | invisibleParameterAnnotations =>
    exact codec_parameterAnnotations.map (fun _ => rfl) fun _ => rfl

end AttributeKind

/-! ### Storing and finding -/

section

variable {α : Type} [Payload α] {pool pool' : ConstantPool} {p : α} {a : Attribute}
  {info : List UInt8}

open ConstantPool

/-- A payload that can be written is stored, unless the pool has no room for the name. -/
theorem PoolM.addAttribute_outcome (hp : pool.Faithful) (hw : Payload.write p = .ok info) :
    (∃ a pool', addAttribute p pool = .ok a pool' ∧ a.info = info ∧ a.Holds pool' p ∧
      (pool.Held (Payload.name α) → pool' = pool)) ∨
    (addAttribute p pool = .error (.poolOverflow (.utf8 (Payload.name α)) pool.extent) pool ∧
      pool.lookupText (Payload.name α) = none ∧ capacity ≤ pool.extent) := by
  rcases addText_outcome (Payload.name α) pool with ⟨i, pool', hi⟩ | ⟨he, hl, hx⟩
  · refine .inl ⟨⟨i, info⟩, pool', addAttribute_iff.mpr ⟨hi, hw⟩, rfl,
      ⟨(faithful_addText hp hi).2.2, hw⟩, fun ht => ?_⟩
    obtain ⟨j, hj⟩ := addText_of_held hp ht
    cases hi.symm.trans hj
    rfl
  · exact .inr ⟨EStateM.bind_eq_error.mpr (.inl he), hl, hx⟩

theorem ConstantPool.Obtained.addAttribute (hp : pool.Obtained)
    (h : PoolM.addAttribute p pool = .ok a pool') : pool'.Obtained :=
  .add hp (PoolM.addAttribute_iff.mp h).1

end

namespace ConstantPool

variable {pool : ConstantPool}

/-- A payload that was found is within the bounds of its kind, and storing it once more gives the
same bytes under the same name and leaves the pool as it is. A payload within the bounds is stored
and then found again, unless its name is not in the pool and has no room there. -/
theorem attribute_codec (hp : pool.Obtained) (kind : AttributeKind) :
    (∀ a p, pool.payload? kind.Content a = .ok (some p) → kind.Bounded p ∧
      ∃ b, PoolM.addAttribute p pool = .ok b pool ∧ b.info = a.info ∧
        pool.attributeName b = pool.attributeName a) ∧
    ∀ p, kind.Bounded p →
      (∃ b pool', PoolM.addAttribute p pool = .ok b pool' ∧
        pool'.payload? kind.Content b = .ok (some p)) ∨
      (PoolM.addAttribute p pool =
          .error (.poolOverflow (.utf8 (Payload.name kind.Content)) pool.extent) pool ∧
        pool.lookupText (Payload.name kind.Content) = none ∧ capacity ≤ pool.extent) := by
  have hf := hp.faithful
  have hc := kind.codec
  constructor
  · intro a p h
    obtain ⟨hn, hr⟩ := payload?_eq_some h
    obtain ⟨hw, hb⟩ := hc.write_of_read hr
    refine ⟨hb, ?_⟩
    rcases PoolM.addAttribute_outcome hf hw with ⟨b, pool', ha, hi, hh, hk⟩ | ⟨-, hl, -⟩
    · -- the name was found in the pool, so it is not added
      cases hk ⟨a.name, hn⟩
      exact ⟨b, ha, hi, hh.name.trans hn.symm⟩
    · obtain ⟨i, hi⟩ := hf.lookup_get (text_eq_ok.mp hn)
      cases hl.symm.trans hi
  · intro p hb
    obtain ⟨info, hw⟩ := hc.writes p hb
    rcases PoolM.addAttribute_outcome hf hw with ⟨b, pool', ha, -, hh, -⟩ | hx
    · exact .inl ⟨b, pool', ha, payload?_of_yields hh.name (hc.yields p _ hb hh.info)⟩
    · exact .inr hx

/-- An annotation whose element is an array, with another annotation in it. -/
def nestedAnnotation : VisibleAnnotations :=
  ⟨[⟨⟨1⟩, [(⟨2⟩, .array [.string ⟨3⟩, .nested ⟨1⟩ [(⟨2⟩, .number .int ⟨4⟩)]])]⟩]⟩

theorem bounded_nestedAnnotation : AttributeKind.visibleAnnotations.Bounded nestedAnnotation := by
  have hn : (ElementValue.nested ⟨1⟩ [(⟨2⟩, .number .int ⟨4⟩)]).Bounded :=
    .nested (by decide) (List.forall_mem_singleton.mpr .number)
  have ha : (ElementValue.array [.string ⟨3⟩, .nested ⟨1⟩ [(⟨2⟩, .number .int ⟨4⟩)]]).Bounded :=
    .array (by decide) (List.forall_mem_cons.mpr ⟨.string, List.forall_mem_singleton.mpr hn⟩)
  exact ⟨by decide, List.forall_mem_singleton.mpr ⟨by decide, List.forall_mem_singleton.mpr ha⟩⟩

/-- It is stored in a new pool, found again, and stored once more without anything being added. -/
theorem attribute_codec_nested : ∃ a pool, PoolM.addAttribute nestedAnnotation empty = .ok a pool ∧
    pool.payload? VisibleAnnotations a = .ok (some nestedAnnotation) ∧
    ∃ b, PoolM.addAttribute nestedAnnotation pool = .ok b pool ∧ b.info = a.info ∧
      pool.attributeName b = pool.attributeName a := by
  rcases (attribute_codec .empty .visibleAnnotations).2 nestedAnnotation bounded_nestedAnnotation
    with ⟨a, pool, ha, hp⟩ | ⟨-, -, hx⟩
  · have hpool := Obtained.empty.addAttribute ha
    obtain ⟨-, hb⟩ := (attribute_codec hpool .visibleAnnotations).1 a _ hp
    exact ⟨a, pool, ha, hp, hb⟩
  · exact absurd hx (by decide)

end ConstantPool

end Classfile
