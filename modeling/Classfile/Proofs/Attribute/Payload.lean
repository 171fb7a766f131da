import Classfile.Attribute.Payload
import Classfile.Proofs.Image.Binary
import Classfile.Proofs.Pool.Growth

/-! Payloads of attributes are read back, under the name of the attribute and no other. -/
namespace Classfile

open Reader ConstantPool

namespace ConstantPool

variable {α : Type} [Payload α] {pool pool' : ConstantPool} {a : Attribute} {name : String} {p : α}

theorem payload?_of_yields (hn : pool.attributeName a = .ok (Payload.name α))
    (hy : (Payload.read : Reader α).Yields a.info p) : pool.payload? α a = .ok (some p) := by
  have hr := hy []
  rw [List.append_nil] at hr
  rw [payload?, hn, Except.ok_bind, if_neg (not_not_intro rfl), hr]
  rfl

theorem payload?_of_ne (hn : pool.attributeName a = .ok name) (hne : name ≠ Payload.name α) :
    pool.payload? α a = .ok none := by
  rw [payload?, hn, Except.ok_bind, if_pos hne]
  rfl

theorem payload?_eq_ok {q : Option α} (h : pool.payload? α a = .ok q) :
    ∃ name, pool.attributeName a = .ok name ∧ ((name ≠ Payload.name α ∧ q = none) ∨
      (name = Payload.name α ∧ ∃ p, q = some p ∧ Payload.read a.info = .ok (p, []))) := by
  obtain ⟨name, hn, h⟩ := Except.bind_eq_ok.mp h
  refine ⟨name, hn, ?_⟩
  by_cases hne : name ≠ Payload.name α
  · rw [if_pos hne] at h
    cases h
    exact .inl ⟨hne, rfl⟩
  · rw [if_neg hne] at h
    refine .inr ⟨not_not.mp hne, ?_⟩
    split at h
    · rename_i hr
      cases h
      exact ⟨_, rfl, hr⟩
    · cases h
    · cases h

theorem payload?_eq_some (h : pool.payload? α a = .ok (some p)) :
    pool.attributeName a = .ok (Payload.name α) ∧ Payload.read a.info = .ok (p, []) := by
  obtain ⟨name, hn, ⟨-, hq⟩ | ⟨rfl, q, hq, hr⟩⟩ := payload?_eq_ok h
  · cases hq
  · cases hq
    exact ⟨hn, hr⟩

theorem payload?_eq_none (h : pool.payload? α a = .ok none) :
    ∃ name, pool.attributeName a = .ok name ∧ name ≠ Payload.name α := by
  obtain ⟨name, hn, ⟨hne, -⟩ | ⟨-, q, hq, -⟩⟩ := payload?_eq_ok h
  · exact ⟨name, hn, hne⟩
  · cases hq

end ConstantPool

section

variable {α : Type} [Payload α] {pool pool' : ConstantPool} {a : Attribute} {p : α}

/-- The attribute has the name that goes with the payload, and its bytes. -/
structure Attribute.Holds (pool : ConstantPool) (a : Attribute) (p : α) : Prop where
  name : pool.attributeName a = .ok (Payload.name α)
  info : Payload.write p = .ok a.info

theorem Attribute.Holds.grows (h : a.Holds pool p) (hg : pool.Grows pool') : a.Holds pool' p :=
  ⟨hg.text h.name, h.info⟩

theorem PoolM.addAttribute_iff : addAttribute p pool = .ok a pool' ↔
    addText (Payload.name α) pool = .ok a.name pool' ∧ Payload.write p = .ok a.info := by
  constructor
  · intro h
    obtain ⟨i, mid, hi, h⟩ := EStateM.bind_eq_ok.mp h
    cases hw : Payload.write p with
    | ok info =>
      rw [hw] at h
      cases h
      exact ⟨hi, rfl⟩
    | error e =>
      rw [hw] at h
      cases h
  · rintro ⟨hi, hw⟩
    refine EStateM.bind_eq_ok.mpr ⟨a.name, pool', hi, ?_⟩
    rw [hw]
    rfl

theorem PoolM.addAttribute_eq_ok (hp : pool.Faithful) (h : addAttribute p pool = .ok a pool') :
    pool'.Faithful ∧ pool.Grows pool' ∧ a.Holds pool' p := by
  obtain ⟨hi, hw⟩ := addAttribute_iff.mp h
  obtain ⟨hp', hg, ht⟩ := faithful_addText hp hi
  exact ⟨hp', hg, ht, hw⟩

theorem PoolM.addAttribute_of_room {info : List UInt8} (h : pool.extent < capacity)
    (hw : Payload.write p = .ok info) :
    ∃ a pool', addAttribute p pool = .ok a pool' ∧ pool'.extent ≤ pool.extent + 1 := by
  obtain ⟨i, pool', hi, hx⟩ := addText_of_room (Payload.name α) h
  exact ⟨⟨i, info⟩, pool', addAttribute_iff.mpr ⟨hi, hw⟩, hx⟩

/-- Add an attribute, unless it is to be left out. -/
def PoolM.addUnless (skip : Bool) (p : α) : PoolM (List Attribute) :=
  if skip then pure [] else do return [← addAttribute p]

/-- An attribute with the payload, unless it is left out. -/
def Attribute.HoldsUnless (pool : ConstantPool) (skip : Bool) (p : α)
    (attributes : List Attribute) : Prop :=
  if skip then attributes = [] else ∃ a, attributes = [a] ∧ a.Holds pool p

theorem Attribute.HoldsUnless.grows {skip : Bool} {attributes : List Attribute}
    (h : HoldsUnless pool skip p attributes) (hg : pool.Grows pool') :
    HoldsUnless pool' skip p attributes := by
  cases skip with
  | true => exact h
  | false =>
    obtain ⟨a, rfl, ha⟩ := h
    exact ⟨a, rfl, ha.grows hg⟩

theorem Attribute.HoldsUnless.info {skip : Bool} {attributes : List Attribute}
    (h : HoldsUnless pool skip p attributes) (ha : a ∈ attributes) :
    Payload.write p = .ok a.info := by
  cases skip with
  | true =>
    cases h
    cases ha
  | false =>
    obtain ⟨b, rfl, hb⟩ := h
    cases List.mem_singleton.mp ha
    exact hb.info

theorem Attribute.HoldsUnless.mapM_eq {β : Type} {skip : Bool} {attributes : List Attribute}
    {f : Attribute → Except Fault β} {found : β} (h : HoldsUnless pool skip p attributes)
    (hf : ∀ a, a.Holds pool p → f a = .ok found) :
    attributes.mapM f = .ok (if skip then [] else [found]) := by
  cases skip with
  | true =>
    cases h
    rfl
  | false =>
    obtain ⟨a, rfl, ha⟩ := h
    exact Except.mapM_eq_ok.mpr (.cons (hf a ha) .nil)

theorem Attribute.HoldsUnless.foldlM_eq {σ : Type} {skip : Bool} {attributes : List Attribute}
    {f : σ → Attribute → Except Fault σ} {s t : σ} (h : HoldsUnless pool skip p attributes)
    (hf : ∀ a, a.Holds pool p → f s a = .ok t) (hs : skip = true → s = t) :
    attributes.foldlM f s = .ok t := by
  cases skip with
  | true =>
    cases h
    rw [hs rfl]
    rfl
  | false =>
    obtain ⟨a, rfl, ha⟩ := h
    rw [List.foldlM_cons, hf a ha]
    rfl

theorem PoolM.addUnless_eq_ok {skip : Bool} {attributes : List Attribute} (hp : pool.Faithful)
    (h : addUnless skip p pool = .ok attributes pool') :
    pool'.Faithful ∧ pool.Grows pool' ∧ Attribute.HoldsUnless pool' skip p attributes := by
  cases skip with
  | true =>
    obtain ⟨rfl, rfl⟩ := EStateM.pure_eq_ok.mp h
    exact ⟨hp, Grows.refl _, rfl⟩
  | false =>
    obtain ⟨a, ha, rfl⟩ := EStateM.map_eq_ok.mp h
    obtain ⟨hp', hg, ha⟩ := addAttribute_eq_ok hp ha
    exact ⟨hp', hg, a, rfl, ha⟩

end

/-- The attribute has a name, which is none of the given ones. -/
def Attribute.Apart (pool : ConstantPool) (names : List String) (a : Attribute) : Prop :=
  ∃ name, pool.attributeName a = .ok name ∧ name ∉ names

theorem Attribute.Apart.grows {pool pool' : ConstantPool} {names : List String} {a : Attribute}
    (h : a.Apart pool names) (hg : pool.Grows pool') : a.Apart pool' names := by
  obtain ⟨name, hn, hm⟩ := h
  exact ⟨name, hg.text hn, hm⟩

/-- The attribute has one of the names. -/
def Attribute.Named (pool : ConstantPool) (names : List String) (a : Attribute) : Prop :=
  ∃ name ∈ names, pool.attributeName a = .ok name

theorem Attribute.Named.mono {pool : ConstantPool} {names others : List String} {a : Attribute}
    (h : a.Named pool names) (hn : ∀ name ∈ names, name ∈ others) : a.Named pool others := by
  obtain ⟨name, hm, hname⟩ := h
  exact ⟨name, hn name hm, hname⟩

theorem Attribute.Apart.mono {pool : ConstantPool} {names others : List String} {a : Attribute}
    (h : a.Apart pool names) (hn : ∀ name ∈ others, name ∈ names) : a.Apart pool others := by
  obtain ⟨name, hname, hm⟩ := h
  exact ⟨name, hname, fun ho => hm (hn name ho)⟩

theorem Attribute.Named.apart {pool : ConstantPool} {names others : List String} {a : Attribute}
    (h : a.Named pool names) (hd : ∀ name ∈ names, name ∉ others) : a.Apart pool others := by
  obtain ⟨name, hm, hn⟩ := h
  exact ⟨name, hn, hd name hm⟩

theorem Attribute.HoldsUnless.name {α : Type} [Payload α] {pool : ConstantPool} {p : α}
    {skip : Bool} {attributes : List Attribute} (h : HoldsUnless pool skip p attributes)
    {a : Attribute} (ha : a ∈ attributes) : pool.attributeName a = .ok (Payload.name α) := by
  cases skip with
  | true =>
    cases h
    cases ha
  | false =>
    obtain ⟨b, rfl, hb⟩ := h
    cases List.mem_singleton.mp ha
    exact hb.name

theorem Attribute.Apart.payload? {α : Type} [Payload α] {pool : ConstantPool}
    {names : List String} {a : Attribute} (h : a.Apart pool names) (hm : Payload.name α ∈ names) :
    pool.payload? α a = .ok none := by
  obtain ⟨name, hn, hne⟩ := h
  refine payload?_of_ne hn ?_
  rintro rfl
  exact hne hm

section

variable {bytes : List UInt8}

theorem ConstantValue.yields_read {p : ConstantValue} (h : Payload.write p = .ok bytes) :
    (Payload.read : Reader ConstantValue).Yields bytes p := by
  cases h
  exact p.value.yields_read.map rfl

theorem Exceptions.yields_read {p : Exceptions} (h : Payload.write p = .ok bytes) :
    (Payload.read : Reader Exceptions).Yields bytes p :=
  (yields_counted (fun i _ _ hw => Except.ok.inj hw ▸ i.yields_read) h).map rfl

theorem LineNumberTable.yields_read {p : LineNumberTable} (h : Payload.write p = .ok bytes) :
    (Payload.read : Reader LineNumberTable).Yields bytes p := by
  refine (yields_counted (fun l _ _ hw => ?_) h).map rfl
  cases hw
  exact (yields_u16 l.start).bind ((yields_u16 l.line).map rfl)

namespace VariableRange

theorem yields_read {r : VariableRange} (h : r.write = .ok bytes) : read.Yields bytes r := by
  cases h
  simp only [List.append_assoc]
  exact (yields_u16 r.start).bind ((yields_u16 r.length).bind (r.name.yields_read.bind
    (r.descriptor.yields_read.bind ((yields_u16 r.slot).map rfl))))

end VariableRange

theorem LocalVariableTable.yields_read {p : LocalVariableTable} (h : Payload.write p = .ok bytes) :
    (Payload.read : Reader LocalVariableTable).Yields bytes p :=
  (yields_counted (fun _ _ _ hw => VariableRange.yields_read hw) h).map rfl

theorem LocalVariableTypeTable.yields_read {p : LocalVariableTypeTable}
    (h : Payload.write p = .ok bytes) :
    (Payload.read : Reader LocalVariableTypeTable).Yields bytes p :=
  (yields_counted (fun _ _ _ hw => VariableRange.yields_read hw) h).map rfl

theorem ExceptionHandler.yields_read {e : ExceptionHandler} (hc : e.catchType ≠ some ⟨0⟩)
    (h : e.write = .ok bytes) : read.Yields bytes e := by
  cases h
  simp only [List.append_assoc]
  exact (yields_u16 e.start).bind ((yields_u16 e.stop).bind ((yields_u16 e.handler).bind
    ((ConstantIndex.yields_readOptional hc).map rfl)))

/-- A sequence of elements of one size is not long. -/
theorem Writer.length_counted {α : Type} {write : α → Except FormatError (List UInt8)}
    {xs : List α} (size : Nat) (hs : ∀ x piece, write x = .ok piece → piece.length = size)
    (h : Writer.counted write xs = .ok bytes) : bytes.length ≤ 2 + 65535 * size := by
  unfold Writer.counted at h
  split at h
  · cases h
  · rename_i hc
    obtain ⟨body, hb, rfl⟩ := Except.map_eq_ok.mp h
    obtain ⟨pieces, hp, rfl⟩ := Except.map_eq_ok.mp hb
    rw [List.length_append, Except.length_flatten hp hs, BigEndian.length_pack]
    exact Nat.add_le_add_left (Nat.mul_le_mul_right size (Nat.le_of_not_lt hc)) 2

theorem LineNumberTable.length_write {p : LineNumberTable} (h : Payload.write p = .ok bytes) :
    bytes.length < 2 ^ 32 := by
  have hl := Writer.length_counted 4 (fun l piece hw => by cases hw; rfl) h
  omega

theorem VariableRange.length_counted {ranges : List VariableRange}
    (h : Writer.counted VariableRange.write ranges = .ok bytes) : bytes.length < 2 ^ 32 := by
  have hl := Writer.length_counted 10 (fun l piece hw => by cases hw; rfl) h
  omega

namespace CodeBody

/-- No handler catches the class with the index zero, and all lengths have room in their
fields. -/
structure Fits (p : CodeBody) : Prop where
  code : p.code.length < 2 ^ 32
  handlers : ∀ e ∈ p.handlers, e.catchType ≠ some ⟨0⟩
  attributes : ∀ a ∈ p.attributes, a.Fits

theorem yields_read {p : CodeBody} (hp : p.Fits) (h : Payload.write p = .ok bytes) :
    (Payload.read : Reader CodeBody).Yields bytes p := by
  obtain ⟨handlers, hh, h⟩ := Except.bind_eq_ok.mp h
  obtain ⟨attributes, ha, rfl⟩ := Except.map_eq_ok.mp h
  have hn : (UInt32.ofNat p.code.length).toNat = p.code.length := UInt32.toNat_ofNat_of_lt' hp.code
  have hu : u32.Yields (BigEndian.pack 4 p.code.length) (UInt32.ofNat p.code.length) :=
    (yields_number 4 p.code.length hp.code).map rfl
  have hh := yields_counted (fun e he _ hw => ExceptionHandler.yields_read (hp.handlers e he) hw) hh
  have ha := Attribute.yields_counted hp.attributes ha
  simp only [Writer.blob, List.append_assoc]
  refine (yields_u16 p.maxStack).bind ((yields_u16 p.maxLocals).bind (hu.bind ?_))
  rw [hn]
  exact (yields_bytes p.code).bind (hh.bind (ha.map rfl))

end CodeBody

theorem Attribute.ensures_read : Attribute.read.Ensures Attribute.Fits := by
  refine ensures_true.bind fun name _ => ensures_true.bind fun n _ => ?_
  refine (ensures_bytes n.toNat).bind fun info hi => ensures_pure ?_
  rw [Fits, hi]
  exact n.toNat_lt

/-- What was read has lengths that had room in their fields. -/
theorem CodeBody.ensures_read : (Payload.read : Reader CodeBody).Ensures fun p =>
    p.code.length < 2 ^ 32 ∧ ∀ a ∈ p.attributes, a.Fits := by
  refine ensures_true.bind fun _ _ => ensures_true.bind fun _ _ => ensures_true.bind fun n _ => ?_
  refine (ensures_bytes n.toNat).bind fun code hc => ensures_true.bind fun _ _ => ?_
  refine Attribute.ensures_read.counted.bind fun attributes ha => ensures_pure ⟨?_, ha⟩
  rw [hc]
  exact n.toNat_lt

end

end Classfile
